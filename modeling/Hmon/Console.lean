import Hmon.Lib.Printf
import Hmon.Monitor.Basic
import Mathlib.Tactic.NormNum

/-!
# A row of the console (`hmon_display_depth` in `console.c`)

* `cellWidth`, `fill` : the width of a cell and the part of it that a displayed value fills;
* `cellWrites` : the writes of `snprintf` into `obj_content` for one object;
* `RowFits` : the cells fit the terminal, the fills their cells, and the writes the buffer;
* `rowFits_iff` : **they do exactly when the terminal has room for the row, a cell's width is an `int`, and each value
  times the width lies between zero and the width times the range of past values**, up to the truncation: the value is
  scaled by the range, but not shifted by its minimum.
-/

namespace Hmon
open Lib

variable {T M : Type}

def fillStr : List Char := List.replicate 208 ':'

/-- What `snprintf` stores in `obj_content`. -/
structure Write where
  offset : Int
  bytes : List Char

/-- `snprintf(obj_content+offset, size, ..)` -/
def write (offset size : Int) (text : List Char) : Write := ⟨offset, snprintf (sizeT size) text⟩

/-- A displayed value and the range of past values. -/
structure Shown where
  val : ℚ
  max : ℚ
  min : ℚ

/-- The sample that the monitor displays. -/
def shown (m : Hmonitor T ℚ M) : Option Shown :=
  if 0 < m.display ∧ m.display ≤ m.nSamples ∧ !m.stopped then
    let i := m.display - 1
    some ⟨m.samples.getD i 0, m.max.getD i 0, m.min.getD i 0⟩
  else none

/-- `cols - 10 - n_obj*2`, an `unsigned`. -/
def rowCells (cols nObj : UInt32) : UInt32 := cols - 10 - nObj * 2

/-- `width`, an `int`. -/
def cellWidth (cols nObj : UInt32) : Int := (rowCells cols nObj / nObj).toInt32.toInt

/-- `none` where the conversion to `int` is undefined. -/
def fill (width : Int) (s : Shown) : Option Int :=
  if s.max = s.min then some width else doubleToInt (s.val * width / (s.max - s.min))

def monitorWrites (verbose : Bool) (width fill : Int) (s : Shown) : List Write :=
  if verbose then
    let text := fixed 6 s.val
    let nc : Int := if text.length > fill then fill else text.length
    [write 0 fill text, write nc (width - nc) (precision (fill - nc) fillStr)]
  else [write 0 fill (precision fill fillStr)]

/-- `typeSnprintf` is the text of `hwloc_obj_type_snprintf`. -/
def objWrites (typeSnprintf : Obj → Bool → List Char) (verbose : Bool) (width : Int) (o : Obj) : List Write :=
  let text := typeSnprintf o verbose
  let nc : Int := if text.length > width then width else text.length
  [write 0 width text, write nc (width - nc) ('#' :: decimal o.logicalIndex)]

/-- An object of the row, and the first monitor of its array. -/
abbrev RowObj (T M : Type) := Obj × Option (Hmonitor T ℚ M)

def cellWrites (typeSnprintf : Obj → Bool → List Char) (verbose : Bool) (width : Int) (obj : RowObj T M) :
    Option (List Write) :=
  match obj.2.bind shown with
  | some s => (fill width s).map fun fill => monitorWrites verbose width fill s
  | none => some (objWrites typeSnprintf verbose width obj.1)

/-- `hmon_display_depth` without what it prints: the width and the writes of the row. -/
def hmonDisplayDepth (typeSnprintf : Obj → Bool → List Char) (cols : UInt32) (verbose : Bool)
    (row : List (RowObj T M)) : Int × List (Option (List Write)) :=
  let width := cellWidth cols (UInt32.ofNat row.length)
  (width, row.map (cellWrites typeSnprintf verbose width))

section Row
variable (typeSnprintf : Obj → Bool → List Char) (cols : UInt32) (verbose : Bool) (row : List (RowObj T M))

/-- The cells fit the terminal if it has room for them, and nothing wraps if not; the fills fit the cells and the writes
`obj_content`. -/
structure RowFits : Prop where
  divisor : UInt32.ofNat row.length ≠ 0
  cells : 10 + 2 * row.length ≤ cols.toNat → 0 ≤ (hmonDisplayDepth typeSnprintf cols verbose row).1 ∧
    10 + row.length * ((hmonDisplayDepth typeSnprintf cols verbose row).1 + 2) ≤ cols.toNat
  noWrap : cols.toNat < 10 + 2 * row.length →
    ((rowCells cols (UInt32.ofNat row.length)).toNat : Int) = cols.toNat - 10 - row.length * 2
  fills : ∀ obj ∈ row, ∀ s, obj.2.bind shown = some s →
    ∃ f, fill (hmonDisplayDepth typeSnprintf cols verbose row).1 s = some f ∧ 0 ≤ f ∧
      f ≤ (hmonDisplayDepth typeSnprintf cols verbose row).1
  writes : ∀ answer ∈ (hmonDisplayDepth typeSnprintf cols verbose row).2, ∃ writes, answer = some writes ∧
    ∀ w ∈ writes, 0 ≤ w.offset ∧
      w.offset + w.bytes.length ≤ (hmonDisplayDepth typeSnprintf cols verbose row).1 + 1

end Row

/-! ## The width -/

theorem toInt_toInt32 (x : UInt32) :
    x.toInt32.toInt = if x.toNat < 2 ^ 31 then (x.toNat : Int) else x.toNat - 2 ^ 32 := by
  have h := BitVec.toInt_eq_toNat_cond x.toBitVec
  have hx : x.toBitVec.toNat = x.toNat := rfl
  rw [hx] at h
  refine Eq.trans h ?_
  split_ifs
  · rfl
  · omega
  · omega
  · norm_cast

/-- The columns that are left for each of `n` objects. -/
def room (cols n : Nat) : Nat := (cols - 10 - 2 * n) / n

section Width
variable {cols nObj : UInt32}

theorem toNat_rowCells (h : 10 + 2 * nObj.toNat ≤ cols.toNat) :
    (rowCells cols nObj).toNat = cols.toNat - 10 - 2 * nObj.toNat := by
  have hcols := cols.toNat_lt
  have hten : (10 : UInt32).toNat = 10 := rfl
  have htwo : (nObj * 2).toNat = 2 * nObj.toNat := by
    rw [UInt32.toNat_mul, show (2 : UInt32).toNat = 2 from rfl]
    omega
  have hsub : (cols - 10).toNat = cols.toNat - 10 := by
    rw [UInt32.toNat_sub_of_le cols 10 (UInt32.le_iff_toNat_le.mpr (by omega)), hten]
  unfold rowCells
  rw [UInt32.toNat_sub_of_le _ _ (UInt32.le_iff_toNat_le.mpr (by omega)), hsub, htwo]

theorem cellWidth_eq (h : 10 + 2 * nObj.toNat ≤ cols.toNat) : cellWidth cols nObj =
    if room cols.toNat nObj.toNat < 2 ^ 31 then (room cols.toNat nObj.toNat : Int)
    else room cols.toNat nObj.toNat - 2 ^ 32 := by
  unfold cellWidth room
  rw [toInt_toInt32, UInt32.toNat_div, toNat_rowCells h]

theorem cellWidth_nonneg_iff (h : 10 + 2 * nObj.toNat ≤ cols.toNat) :
    0 ≤ cellWidth cols nObj ↔ room cols.toNat nObj.toNat < 2 ^ 31 := by
  have hcols := cols.toNat_lt
  have hdiv : room cols.toNat nObj.toNat ≤ cols.toNat - 10 - 2 * nObj.toNat := Nat.div_le_self _ _
  rw [cellWidth_eq h]
  split_ifs with hw
  · exact iff_of_true (Int.natCast_nonneg _) hw
  · refine iff_of_false ?_ hw
    omega

end Width

/-! ## The writes -/

theorem length_write_le {offset size : Int} {text : List Char} (h : 0 ≤ size) (hlt : size < 2 ^ 64) :
    ((write offset size text).bytes.length : Int) ≤ size := by
  have hle := length_snprintf_le (sizeT size) text
  rw [sizeT_of_nonneg h hlt] at hle
  show ((snprintf (sizeT size) text).length : Int) ≤ size
  rw [sizeT_of_nonneg h hlt]
  omega

/-- The writes stay between the start of `obj_content` and its `width` first bytes. -/
def Inside (width : Int) (w : Write) : Prop := 0 ≤ w.offset ∧ w.offset + w.bytes.length ≤ width

theorem inside_write {width offset size : Int} {text : List Char} (hoffset : 0 ≤ offset) (hsize : 0 ≤ size)
    (hend : offset + size ≤ width) (hlt : width < 2 ^ 31) : Inside width (write offset size text) := by
  have hle : ((write offset size text).bytes.length : Int) ≤ size := length_write_le hsize (by omega)
  refine ⟨hoffset, ?_⟩
  show offset + ((write offset size text).bytes.length : Int) ≤ width
  omega

variable {width : Int}

theorem objWrites_inside (hwidth : 0 ≤ width) (hlt : width < 2 ^ 31) (typeSnprintf : Obj → Bool → List Char)
    (verbose : Bool) (o : Obj) : ∀ w ∈ objWrites typeSnprintf verbose width o, Inside width w := by
  unfold objWrites
  intro w hw
  simp only [List.mem_cons, List.not_mem_nil, or_false] at hw
  obtain rfl | rfl := hw
  · exact inside_write (le_refl _) hwidth (by omega) hlt
  · split_ifs
    · exact inside_write hwidth (by omega) (by omega) hlt
    · exact inside_write (Int.natCast_nonneg _) (by omega) (by omega) hlt

theorem monitorWrites_inside (hlt : width < 2 ^ 31) (verbose : Bool) {f : Int} (hf : 0 ≤ f) (hle : f ≤ width)
    (s : Shown) : ∀ w ∈ monitorWrites verbose width f s, Inside width w := by
  unfold monitorWrites
  intro w hw
  cases verbose with
  | true =>
    simp only [if_true, List.mem_cons, List.not_mem_nil, or_false] at hw
    obtain rfl | rfl := hw
    · exact inside_write (le_refl _) hf (by omega) hlt
    · split_ifs
      · exact inside_write hf (by omega) (by omega) hlt
      · exact inside_write (Int.natCast_nonneg _) (by omega) (by omega) hlt
  | false =>
    obtain rfl := List.mem_singleton.mp hw
    exact inside_write (le_refl _) hf (by omega) hlt

/-! ## The fill -/

/-- The value times the width, against the range. -/
theorem fill_between {s : Shown} (hs : s.min ≤ s.max) (hwidth : 0 ≤ width) (hlt : width < 2 ^ 31) :
    (∃ f, fill width s = some f ∧ 0 ≤ f ∧ f ≤ width) ↔
      s.max = s.min ∨ -(s.max - s.min) < s.val * width ∧ s.val * width < (width + 1) * (s.max - s.min) := by
  unfold fill
  split_ifs with heq
  · exact iff_of_true ⟨width, rfl, hwidth, le_refl _⟩ (.inl heq)
  · have hscale : 0 < s.max - s.min := sub_pos.mpr (lt_of_le_of_ne hs (Ne.symm heq))
    rw [doubleToInt_between hwidth hlt, lt_div_iff₀ hscale, div_lt_iff₀ hscale, neg_one_mul, or_iff_right heq]

/-! ## The row -/

section
variable {typeSnprintf : Obj → Bool → List Char} {cols : UInt32} {verbose : Bool} {row : List (RowObj T M)}

variable (typeSnprintf verbose) in
theorem cellWrites_inside {width : Int} (hwidth : 0 ≤ width) (hlt : width < 2 ^ 31) {obj : RowObj T M}
    (hfill : ∀ s, obj.2.bind shown = some s → ∃ f, fill width s = some f ∧ 0 ≤ f ∧ f ≤ width) :
    ∃ writes, cellWrites typeSnprintf verbose width obj = some writes ∧ ∀ w ∈ writes, Inside width w := by
  unfold cellWrites
  cases hshown : obj.2.bind shown with
  | none => exact ⟨_, rfl, objWrites_inside hwidth hlt _ _ _⟩
  | some s =>
    obtain ⟨f, hf, hpos, hle⟩ := hfill s hshown
    exact ⟨_, congrArg (Option.map _) hf, monitorWrites_inside hlt _ hpos hle s⟩

/-- A row that has room leaves each cell its share. -/
theorem room_cells {c n : Nat} (h : 10 + 2 * n ≤ c) : 10 + n * (room c n + 2) ≤ c := by
  have hmul : n * room c n ≤ c - 10 - 2 * n := Nat.mul_div_le _ _
  rw [Nat.mul_add]
  omega

/-- The width of the cells of a row that has room. -/
theorem width_of_room (hlen : row.length < 2 ^ 32) (hcols : 10 + 2 * row.length ≤ cols.toNat)
    (hroom : room cols.toNat row.length < 2 ^ 31) :
    (hmonDisplayDepth typeSnprintf cols verbose row).1 = room cols.toNat row.length := by
  have hn : (UInt32.ofNat row.length).toNat = row.length := UInt32.toNat_ofNat_of_lt' hlen
  show cellWidth cols (UInt32.ofNat row.length) = _
  rw [cellWidth_eq (by rwa [hn]), hn, if_pos hroom]

/-- What fits a cell of `w` columns. -/
theorem fill_room {w : Nat} (hw : w < 2 ^ 31) {s : Shown} (hs : s.min ≤ s.max) :
    (∃ f, fill w s = some f ∧ 0 ≤ f ∧ f ≤ w) ↔
      s.max = s.min ∨ -(s.max - s.min) < s.val * w ∧ s.val * w < (w + 1) * (s.max - s.min) := by
  have h := fill_between hs (Int.natCast_nonneg w) (by exact_mod_cast hw)
  exact_mod_cast h

theorem rowFits_of_fills (hlen : row.length < 2 ^ 32) (hne : row ≠ []) (hcols : 10 + 2 * row.length ≤ cols.toNat)
    (hroom : room cols.toNat row.length < 2 ^ 31)
    (hfills : ∀ obj ∈ row, ∀ s, obj.2.bind shown = some s →
      ∃ f, fill (room cols.toNat row.length) s = some f ∧ 0 ≤ f ∧ f ≤ room cols.toNat row.length) :
    RowFits typeSnprintf cols verbose row := by
  have hwidth : (hmonDisplayDepth typeSnprintf cols verbose row).1 = room cols.toNat row.length :=
    width_of_room hlen hcols hroom
  have hdivisor : UInt32.ofNat row.length ≠ 0 := by
    intro hzero
    have hn : (UInt32.ofNat row.length).toNat = row.length := UInt32.toNat_ofNat_of_lt' hlen
    rw [hzero, UInt32.toNat_zero] at hn
    exact hne (List.eq_nil_of_length_eq_zero hn.symm)
  refine ⟨hdivisor, fun _ => ?_, fun hnarrow => absurd hnarrow (by omega), ?_, ?_⟩
  · rw [hwidth]
    exact ⟨Int.natCast_nonneg _, by exact_mod_cast room_cells hcols⟩
  · rw [hwidth]
    exact hfills
  · intro answer hanswer
    obtain ⟨obj, hobj, rfl⟩ := List.mem_map.mp hanswer
    rw [hwidth]
    show ∃ writes, cellWrites typeSnprintf verbose (hmonDisplayDepth typeSnprintf cols verbose row).1 obj = _ ∧ _
    rw [hwidth]
    obtain ⟨writes, hsome, hin⟩ := cellWrites_inside typeSnprintf verbose
      (Int.natCast_nonneg (room cols.toNat row.length)) (by exact_mod_cast hroom) (hfills obj hobj)
    refine ⟨writes, hsome, fun w hw => ⟨(hin w hw).1, ?_⟩⟩
    have := (hin w hw).2
    omega

/-- **The row fits exactly when the terminal has room for it and each value is small against its range.** -/
theorem rowFits_iff (hlen : row.length < 2 ^ 32) (hne : row ≠ [])
    (hrange : ∀ obj ∈ row, ∀ s, obj.2.bind shown = some s → s.min ≤ s.val ∧ s.val ≤ s.max) :
    RowFits typeSnprintf cols verbose row ↔
      10 + 2 * row.length ≤ cols.toNat ∧ room cols.toNat row.length < 2 ^ 31 ∧
      ∀ obj ∈ row, ∀ s, obj.2.bind shown = some s → s.max = s.min ∨
        -(s.max - s.min) < s.val * room cols.toNat row.length ∧
        s.val * room cols.toNat row.length < (room cols.toNat row.length + 1) * (s.max - s.min) := by
  have hn : (UInt32.ofNat row.length).toNat = row.length := UInt32.toNat_ofNat_of_lt' hlen
  have hordered : ∀ obj ∈ row, ∀ s, obj.2.bind shown = some s → s.min ≤ s.max :=
    fun obj hobj s hs => (hrange obj hobj s hs).1.trans (hrange obj hobj s hs).2
  constructor
  · intro hfits
    have hcols : 10 + 2 * row.length ≤ cols.toNat := by
      by_contra hnarrow
      have := hfits.noWrap (by omega)
      omega
    have hroom : room cols.toNat row.length < 2 ^ 31 := by
      have hpos : 0 ≤ cellWidth cols (UInt32.ofNat row.length) := (hfits.cells hcols).1
      rwa [cellWidth_nonneg_iff (by rwa [hn]), hn] at hpos
    refine ⟨hcols, hroom, fun obj hobj s hs => ?_⟩
    have h := hfits.fills obj hobj s hs
    rwa [width_of_room hlen hcols hroom, fill_room hroom (hordered obj hobj s hs)] at h
  · rintro ⟨hcols, hroom, hvalues⟩
    exact rowFits_of_fills hlen hne hcols hroom fun obj hobj s hs =>
      (fill_room hroom (hordered obj hobj s hs)).mpr (hvalues obj hobj s hs)

end

/-! ## One core in a terminal of 80 columns -/

def displaying (val min max : ℚ) : RowObj ℕ ℕ :=
  (⟨.core, 1, 0, {0}⟩, some { fakeMonitor with
    samples := [val], max := [max], min := [min], display := 1, stopped := false })

theorem shown_displaying (val min max : ℚ) : (displaying val min max).2.bind shown = some ⟨val, max, min⟩ := rfl

/-- Half of a range that begins at 0. -/
theorem rowFits_half : RowFits (fun _ _ => "Core".toList) 80 false [displaying 5 0 10] := by
  refine (rowFits_iff (by decide) (List.cons_ne_nil _ _) ?_).mpr ⟨by decide, by decide, ?_⟩
  · intro obj hobj s hs
    obtain rfl := List.mem_singleton.mp hobj
    obtain rfl := Option.some.inj ((shown_displaying _ _ _).symm.trans hs)
    exact ⟨by decide, by decide⟩
  · intro obj hobj s hs
    obtain rfl := List.mem_singleton.mp hobj
    obtain rfl := Option.some.inj ((shown_displaying _ _ _).symm.trans hs)
    have hroom : room (80 : UInt32).toNat [displaying 5 0 10].length = 68 := rfl
    rw [hroom]
    exact .inr ⟨by norm_num, by norm_num⟩

/-- A value of 10 that was 9 before: 680 columns of 68 are filled. -/
theorem row_overflows : ¬ ∀ {typeSnprintf : Obj → Bool → List Char} {cols : UInt32} {verbose : Bool}
    {row : List (RowObj ℕ ℕ)}, row.length < 2 ^ 32 → row ≠ [] →
    (∀ obj ∈ row, ∀ s, obj.2.bind shown = some s → s.min ≤ s.val ∧ s.val ≤ s.max) →
    RowFits typeSnprintf cols verbose row := by
  intro hall
  have hfits := @hall (fun _ _ => "Core".toList) 80 false [displaying 10 9 10] (by decide) (List.cons_ne_nil _ _) (by
      intro obj hobj s hs
      obtain rfl := List.mem_singleton.mp hobj
      obtain rfl := Option.some.inj ((shown_displaying _ _ _).symm.trans hs)
      exact ⟨by decide, by decide⟩)
  have hfill : ∃ f, fill 68 ⟨10, 10, 9⟩ = some f ∧ 0 ≤ f ∧ f ≤ 68 :=
    hfits.fills _ (List.mem_singleton.mpr rfl) ⟨10, 10, 9⟩ (shown_displaying _ _ _)
  rw [fill_between (by norm_num) (by decide) (by decide)] at hfill
  norm_num at hfill

end Hmon
