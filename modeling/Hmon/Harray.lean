import Hmon.C
import Mathlib.Data.List.ReduceOption
import Mathlib.Data.List.Perm.Basic

/-!
# Growable arrays (`harray.c`)

* `Harray` : `struct hmon_array`, its allocated cells and its length; `none` is a NULL cell;
* `Fault` : the ways a call can go wrong in C (endless loop, access outside the allocation, NULL dereference);
* `harrayGet`, `harraySet`, `harrayPush`, `harrayPop`, `harrayInsert`, `harrayRemove`, `emptyHarray`, `harrayDup`,
  `harrayFind`, `harrayInsertSorted` : the functions of `harray.c`;
* `Harray.elems` : the elements seen from outside; `harrayInsertSorted_spec` : an insertion adds its element to
  them, at some position, and changes nothing else.
-/

namespace Hmon

/-- What goes wrong in C when a call has no result. -/
inductive Fault
  | diverges
  | outOfBounds
  | nullDeref
  deriving DecidableEq

/-- `struct hmon_array`: `cell` has `allocated_length` cells. -/
structure Harray (α : Type) where
  cell : List (Option α)
  length : Nat

variable {α : Type}

def newHarray (maxElem : Nat) : Harray α := ⟨List.replicate maxElem none, 0⟩

/-- `while((allocated_length *= 2) < length);` — `none` when the loop does not end: after 32 doublings an
`unsigned` is 0 and stays 0. -/
def doubleUntil : Nat → Nat → Nat → Option Nat
  | 0, _, _ => none
  | fuel + 1, allocated, length =>
    let allocated := u32 (allocated * 2)
    if allocated < length then doubleUntil fuel allocated length else some allocated

def harrayChkLength (a : Harray α) (length : Nat) : Except Fault (Harray α) :=
  if a.cell.length ≤ length then
    match doubleUntil 33 a.cell.length length with
    | none => .error .diverges
    | some n => .ok { a with cell := a.cell.take a.length ++ List.replicate (n - a.length) none }
  else .ok a

def harrayGet (a : Harray α) (i : Nat) : Option α :=
  if a.length ≤ i then none else a.cell[i]?.join

/-- `harray_set`: the old cell and the new array. -/
def harraySet (a : Harray α) (i : Nat) (element : Option α) : Except Fault (Option α × Harray α) := do
  let a ← harrayChkLength a i
  if i < a.cell.length then
    .ok (a.cell[i]?.join, ⟨a.cell.set i element, if a.length ≤ i then i + 1 else a.length⟩)
  else .error .outOfBounds

def harrayPush (a : Harray α) (element : Option α) : Except Fault (Harray α) := do
  let (_, a) ← harraySet a a.length element
  .ok a

/-- `harray_pop`: the last cell and the new array. The cell keeps its pointer. -/
def harrayPop (a : Harray α) : Option α × Harray α :=
  if a.length = 0 then (none, a) else (a.cell[a.length - 1]?.join, { a with length := a.length - 1 })

/-- `empty_harray` on an array that is not NULL. The cells keep their pointers. -/
def emptyHarray (a : Harray α) : Harray α := { a with length := 0 }

/-- `harray_dup`: the allocation of the array, with NULL above the length. -/
def harrayDup (a : Harray α) : Harray α :=
  { a with cell := a.cell.take a.length ++ List.replicate (a.cell.length - a.length) none }

/-- `memmove(&cell[dst], &cell[src], n)`. -/
def memmove {β : Type} (cell : List β) (dst src n : Nat) : List β :=
  cell.take dst ++ (cell.drop src).take n ++ cell.drop (dst + n)

def harrayInsert (a : Harray α) (i : Nat) (element : Option α) : Except Fault (Harray α) :=
  if a.length ≤ i then .ok a
  else do
    -- at `2 ^ 32 - 1` elements C computes 0 here and `memmove` leaves the allocation; there is no result either way
    let a ← harrayChkLength a (a.length + 1)
    if a.length + 1 ≤ a.cell.length then
      .ok ⟨(memmove a.cell (i + 1) i (a.length - i)).set i element, a.length + 1⟩
    else .error .outOfBounds

/-- `harray_remove`: the removed cell and the new array. -/
def harrayRemove (a : Harray α) (i : Int) : Option α × Harray α :=
  if i < 0 ∨ a.length ≤ i.toNat then (none, a)
  else
    (a.cell[i.toNat]?.join,
      ⟨memmove a.cell i.toNat (i.toNat + 1) (a.length - i.toNat - 1), a.length - 1⟩)

/-- The object that a cell points to, for a comparison that dereferences it. -/
def deref (cell : List (Option α)) (i : Nat) : Except Fault α :=
  match cell[i]? with
  | none => .error .outOfBounds
  | some none => .error .nullDeref
  | some (some x) => .ok x

/-- The binary search of the C library over the cells `l` to `u - 1`. -/
def bsearch (compare : α → α → Int) (key : α) (cell : List (Option α)) :
    Nat → Nat → Nat → Except Fault (Option Nat)
  | 0, _, _ => .error .diverges
  | fuel + 1, l, u =>
    if l < u then do
      let idx := (l + u) / 2
      let x ← deref cell idx
      if compare key x < 0 then bsearch compare key cell fuel l idx
      else if 0 < compare key x then bsearch compare key cell fuel (idx + 1) u
      else .ok (some idx)
    else .ok none

/-- `harray_find`: the index of an element that compares equal, or `-1`. -/
def harrayFind (a : Harray α) (key : α) (compare : α → α → Int) : Except Fault Int := do
  match ← bsearch compare key a.cell (a.length + 1) 0 a.length with
  | none => .ok (-1)
  | some i => .ok i

/-- The `do … while(insert_index < right_bound)` loop of `harray_insert_sorted`. -/
def bisect (compare : α → α → Int) (element : α) (cell : List (Option α)) :
    Nat → Nat → Nat → Nat → Except Fault Nat
  | 0, _, _, _ => .error .diverges
  | fuel + 1, left, right, insertIndex => do
    let x ← deref cell insertIndex
    let comp := compare element x
    if comp = 0 then .ok insertIndex
    else
      let left' := if 0 < comp then insertIndex else left
      let right' := if 0 < comp then right else insertIndex
      let insertIndex := u32 (1 + left' + (right' - left') / 2)
      if insertIndex < right' then bisect compare element cell fuel left' right' insertIndex
      else .ok insertIndex

/-- The index at which `harray_insert_sorted` inserts. -/
def insertIndex (a : Harray α) (element : α) (compare : α → α → Int) : Except Fault Nat :=
  if a.length = 1 then do
    let x ← deref a.cell 0
    .ok (if 0 < compare element x then 1 else 0)
  else bisect compare element a.cell a.length 0 (a.length - 1) (u32 (1 + (a.length - 1) / 2))

/-- `harray_insert_sorted`: the index of the inserted element and the new array. -/
def harrayInsertSorted (a : Harray α) (element : α) (compare : α → α → Int) :
    Except Fault (Nat × Harray α) :=
  if a.length = 0 then do
    let a ← harrayPush a (some element)
    .ok (0, a)
  else do
    let i ← insertIndex a element compare
    if a.length ≤ i then
      let a ← harrayPush a (some element)
      .ok (a.length - 1, a)
    else
      let a ← harrayInsert a i (some element)
      .ok (i, a)

namespace Harray

/-- The cells below the length. -/
def elems (a : Harray α) : List (Option α) := a.cell.take a.length

/-- The elements that are not NULL. -/
def toList (a : Harray α) : List α := a.elems.reduceOption

/-- The length fits the allocation. -/
def Fits (a : Harray α) : Prop := a.length ≤ a.cell.length

theorem length_elems {a : Harray α} (h : a.Fits) : a.elems.length = a.length := by
  rw [elems, List.length_take, Nat.min_eq_left h]

end Harray

open Harray

theorem newHarray_fits (n : Nat) : (newHarray n : Harray α).Fits := Nat.zero_le _

@[simp] theorem newHarray_toList (n : Nat) : (newHarray n : Harray α).toList = [] := by
  simp [newHarray, toList, elems]

/-! ## Growth keeps the elements -/

theorem harrayChkLength_spec {a b : Harray α} {n : Nat} (hf : a.Fits) (h : harrayChkLength a n = .ok b) :
    b.length = a.length ∧ b.elems = a.elems ∧ b.Fits := by
  unfold harrayChkLength at h
  split_ifs at h with hn
  · split at h
    · cases h
    · cases h
      have ht : (a.cell.take a.length).length = a.length := by rw [List.length_take, Nat.min_eq_left hf]
      refine ⟨rfl, ?_, ?_⟩
      · simp only [elems]
        rw [List.take_append_of_le_length (by rw [ht]), List.take_take, Nat.min_self]
      · unfold Harray.Fits
        rw [List.length_append, ht]
        exact Nat.le_add_right _ _
  · cases h
    exact ⟨rfl, rfl, hf⟩

theorem harrayPush_spec {a b : Harray α} {e : Option α} (hf : a.Fits) (h : harrayPush a e = .ok b) :
    b.elems = a.elems ++ [e] ∧ b.Fits := by
  unfold harrayPush harraySet at h
  simp only [bind, Except.bind] at h
  cases hc : harrayChkLength a a.length with
  | error f => rw [hc] at h; cases h
  | ok c =>
    rw [hc] at h
    obtain ⟨hl, he, -⟩ := harrayChkLength_spec hf hc
    simp only [hl, le_refl, if_true] at h
    split_ifs at h with hlt
    · cases h
      refine ⟨?_, ?_⟩
      · have : c.cell.take a.length = a.elems := by rw [← he, elems, hl]
        simp only [elems]
        rw [List.take_set, List.take_add_one, List.getElem?_eq_getElem hlt, this]
        rw [Option.toList_some, List.set_append_right _ _ (by rw [length_elems hf]), length_elems hf,
          Nat.sub_self]
        rfl
      · simp only [Harray.Fits, List.length_set]
        exact hlt

/-! ## An insertion adds its element at one position -/

theorem length_memmove {β : Type} {cell : List β} {i n : Nat} (h : n + 1 ≤ cell.length) (hi : i ≤ n) :
    (memmove cell (i + 1) i (n - i)).length = cell.length := by
  simp only [memmove, List.length_append, List.length_take, List.length_drop]
  omega

/-- Shifting the cells from `i` up by one and writing cell `i` inserts at `i`. -/
theorem memmove_set_take {β : Type} {cell : List β} {i n : Nat} (h : n + 1 ≤ cell.length) (hi : i < n) (e : β) :
    ((memmove cell (i + 1) i (n - i)).set i e).take (n + 1) = (cell.take n).insertIdx i e := by
  apply List.ext_getElem?
  intro k
  rw [List.getElem?_insertIdx, List.getElem?_take, List.getElem?_set, length_memmove h hi.le]
  have hm : ∀ k, k ≠ i → k < n + 1 →
      (memmove cell (i + 1) i (n - i))[k]? = if k < i then cell[k]? else cell[k - 1]? := by
    intro k hk hkn
    simp only [memmove]
    have h1 : (cell.take (i + 1)).length = i + 1 := by rw [List.length_take]; omega
    by_cases hki : k < i
    · rw [if_pos hki, List.append_assoc, List.getElem?_append_left (by omega), List.getElem?_take, if_pos (by omega)]
    · have h2 : (cell.take (i + 1) ++ (cell.drop i).take (n - i)).length = n + 1 := by
        rw [List.length_append, h1, List.length_take, List.length_drop]; omega
      rw [if_neg hki, List.getElem?_append_left (by omega), List.getElem?_append_right (by omega), h1,
        List.getElem?_take, if_pos (by omega), List.getElem?_drop]
      congr 1; omega
  by_cases hkn : k < n + 1
  · rw [if_pos hkn]
    rcases lt_trichotomy k i with hk | rfl | hk
    · rw [if_neg (by omega), hm k (by omega) hkn, if_pos hk, if_pos hk, List.getElem?_take, if_pos (by omega)]
    · rw [if_pos rfl, if_pos (by omega), if_neg (lt_irrefl _), if_pos rfl,
        if_pos (by rw [List.length_take]; omega)]
    · rw [if_neg (by omega), hm k (by omega) hkn, if_neg (by omega), if_neg (by omega), if_neg (by omega),
        List.getElem?_take, if_pos (by omega)]
  · rw [if_neg hkn, if_neg (by omega), if_neg (by omega), List.getElem?_take, if_neg (by omega)]

theorem harrayInsert_spec {a b : Harray α} {i : Nat} {e : Option α} (hf : a.Fits) (hi : i < a.length)
    (h : harrayInsert a i e = .ok b) : b.elems = a.elems.insertIdx i e ∧ b.Fits := by
  unfold harrayInsert at h
  rw [if_neg (by omega)] at h
  simp only [bind, Except.bind] at h
  cases hc : harrayChkLength a (a.length + 1) with
  | error f => rw [hc] at h; cases h
  | ok c =>
    rw [hc] at h
    obtain ⟨hl, he, -⟩ := harrayChkLength_spec hf hc
    simp only [hl] at h
    split_ifs at h with hlt
    · cases h
      refine ⟨?_, ?_⟩
      · rw [← he]
        simp only [elems, hl]
        exact memmove_set_take hlt hi e
      · simp only [Harray.Fits, List.length_set, length_memmove hlt hi.le]
        exact hlt

/-- **A sorted insertion adds its element, once, and keeps the others in order.** -/
theorem harrayInsertSorted_spec {a b : Harray α} {e : α} {compare : α → α → Int} {k : Nat} (hf : a.Fits)
    (h : harrayInsertSorted a e compare = .ok (k, b)) :
    (∃ i ≤ a.length, b.elems = a.elems.insertIdx i (some e)) ∧ b.Fits := by
  have push : ∀ {b : Harray α}, harrayPush a (some e) = .ok b →
      (∃ i ≤ a.length, b.elems = a.elems.insertIdx i (some e)) ∧ b.Fits := by
    intro b hp
    obtain ⟨he, hb⟩ := harrayPush_spec hf hp
    refine ⟨⟨a.length, le_rfl, ?_⟩, hb⟩
    rw [he, ← length_elems hf, List.insertIdx_length_self]
  unfold harrayInsertSorted at h
  simp only [bind, Except.bind] at h
  split_ifs at h with h0
  · split at h
    · cases h
    · rename_i c hc
      cases h
      exact push hc
  · split at h
    · cases h
    · rename_i i hi
      split_ifs at h with hl
      · split at h
        · cases h
        · rename_i c hc
          cases h
          exact push hc
      · split at h
        · cases h
        · rename_i c hc
          cases h
          obtain ⟨he, hb⟩ := harrayInsert_spec hf (by omega) hc
          exact ⟨⟨_, by omega, he⟩, hb⟩

/-- The new elements are the old ones and the inserted one. -/
theorem harrayInsertSorted_perm {a b : Harray α} {e : α} {compare : α → α → Int} {k : Nat} (hf : a.Fits)
    (h : harrayInsertSorted a e compare = .ok (k, b)) : b.toList.Perm (e :: a.toList) := by
  obtain ⟨⟨i, hi, he⟩, -⟩ := harrayInsertSorted_spec hf h
  have hp : b.elems.Perm (some e :: a.elems) := by
    rw [he]
    exact List.perm_insertIdx _ _ (by rw [length_elems hf]; exact hi)
  have := hp.filterMap id
  simpa [toList, List.reduceOption] using this

/-! ## An insertion returns -/

/-- One doubling makes room for one element more. -/
theorem doubleUntil_once {allocated n : Nat} (h0 : 0 < allocated) (hn : n ≤ allocated + 1) (hl : allocated < 2 ^ 31) :
    doubleUntil 33 allocated n = some (allocated * 2) := by
  have hu : u32 (allocated * 2) = allocated * 2 := Nat.mod_eq_of_lt (by omega)
  unfold doubleUntil
  simp only [hu]
  exact if_neg (by omega)

/-- The allocation after growth: room for `n` elements, and for one more when there already was room for `n`. -/
theorem harrayChkLength_ok {a : Harray α} {n : Nat} (hf : a.Fits) (h0 : 0 < a.cell.length) (hn : n ≤ a.cell.length + 1)
    (hl : n < 2 ^ 31) : ∃ b, harrayChkLength a n = .ok b ∧ n ≤ b.cell.length ∧
      (n ≤ a.cell.length → n < b.cell.length) := by
  unfold harrayChkLength
  by_cases hc : a.cell.length ≤ n
  · rw [if_pos hc, doubleUntil_once h0 hn (by omega)]
    have hlen : (a.cell.take a.length ++ List.replicate (a.cell.length * 2 - a.length) none).length =
        a.cell.length * 2 := by
      rw [List.length_append, List.length_take, List.length_replicate, Nat.min_eq_left hf]
      unfold Harray.Fits at hf
      omega
    refine ⟨_, rfl, ?_, fun _ => ?_⟩
    · show n ≤ (_ ++ _ : List (Option α)).length
      omega
    · show n < (_ ++ _ : List (Option α)).length
      omega
  · rw [if_neg hc]
    exact ⟨a, rfl, by omega, fun _ => by omega⟩

theorem harrayPush_ok {a : Harray α} (e : Option α) (hf : a.Fits) (h0 : 0 < a.cell.length) (hl : a.length < 2 ^ 31) :
    ∃ b, harrayPush a e = .ok b := by
  obtain ⟨b, hb, -, hlt⟩ := harrayChkLength_ok hf h0 (Nat.le_succ_of_le hf) hl
  unfold harrayPush harraySet
  rw [hb]
  simp only [bind, Except.bind, if_pos (hlt hf)]
  exact ⟨_, rfl⟩

theorem harrayInsert_ok {a : Harray α} (i : Nat) (e : Option α) (hf : a.Fits) (h0 : 0 < a.cell.length)
    (hl : a.length + 1 < 2 ^ 31) : ∃ b, harrayInsert a i e = .ok b := by
  unfold harrayInsert
  by_cases hi : a.length ≤ i
  · exact ⟨a, if_pos hi⟩
  · obtain ⟨b, hb, hle, -⟩ := harrayChkLength_ok hf h0 (Nat.succ_le_succ hf) hl
    rw [if_neg hi, hb]
    simp only [bind, Except.bind]
    rw [(harrayChkLength_spec hf hb).1, if_pos hle]
    exact ⟨_, rfl⟩

/-- The cells up to `n` point to objects. -/
def Pointing (cell : List (Option α)) (n : Nat) : Prop := ∀ i < n, ∃ x, deref cell i = .ok x

/-- The bisection ends: a step that continues makes the interval smaller. -/
theorem bisect_ok {compare : α → α → Int} {e : α} {cell : List (Option α)} {n fuel left right index : Nat}
    (hp : Pointing cell n) (hn : n < 2 ^ 31) (hfuel : right - left < fuel) (hlr : left ≤ right) (hr : right < n)
    (hl : left < index) (hi : index ≤ right) (hidx : index = 1 + left + (right - left) / 2) :
    ∃ i, bisect compare e cell fuel left right index = .ok i := by
  induction fuel generalizing left right index with
  | zero => exact absurd hfuel (Nat.not_lt_zero _)
  | succ fuel ih =>
    obtain ⟨x, hx⟩ := hp index (hi.trans_lt hr)
    unfold bisect
    rw [hx]
    simp only [bind, Except.bind]
    by_cases h0 : compare e x = 0
    · exact ⟨index, if_pos h0⟩
    rw [if_neg h0]
    by_cases hgt : 0 < compare e x
    · have hu : u32 (1 + index + (right - index) / 2) = 1 + index + (right - index) / 2 :=
        Nat.mod_eq_of_lt (by omega)
      simp only [if_pos hgt, hu]
      split_ifs with hlt
      · exact ih (by omega) (by omega) hr (by omega) hlt.le rfl
      · exact ⟨_, rfl⟩
    · have hu : u32 (1 + left + (index - left) / 2) = 1 + left + (index - left) / 2 :=
        Nat.mod_eq_of_lt (by omega)
      simp only [if_neg hgt, hu]
      split_ifs with hlt
      · exact ih (by omega) (by omega) (by omega) (by omega) hlt.le rfl
      · exact ⟨_, rfl⟩

theorem insertIndex_ok {a : Harray α} (e : α) (compare : α → α → Int) (h0 : 0 < a.length)
    (hp : Pointing a.cell a.length) (hl : a.length < 2 ^ 31) : ∃ i, insertIndex a e compare = .ok i := by
  unfold insertIndex
  by_cases h1 : a.length = 1
  · obtain ⟨x, hx⟩ := hp 0 h0
    rw [if_pos h1, hx]
    exact ⟨_, rfl⟩
  · have hu : u32 (1 + (a.length - 1) / 2) = 1 + (a.length - 1) / 2 := Nat.mod_eq_of_lt (by omega)
    rw [if_neg h1, hu]
    exact bisect_ok hp hl (by omega) (Nat.zero_le _) (by omega) (by omega) (by omega) (by omega)

/-- **A sorted insertion returns**: it neither loops nor leaves the allocation, as long as the array can grow. -/
theorem harrayInsertSorted_ok {a : Harray α} (e : α) (compare : α → α → Int) (hf : a.Fits) (h0 : 0 < a.cell.length)
    (hp : Pointing a.cell a.length) (hl : a.length + 1 < 2 ^ 31) :
    ∃ k b, harrayInsertSorted a e compare = .ok (k, b) := by
  obtain ⟨b, hb⟩ := harrayPush_ok (some e) hf h0 (by omega)
  unfold harrayInsertSorted
  simp only [bind, Except.bind]
  split_ifs with hz
  · rw [hb]
    exact ⟨_, _, rfl⟩
  · obtain ⟨i, hi⟩ := insertIndex_ok e compare (Nat.pos_of_ne_zero hz) hp (by omega)
    rw [hi]
    simp only
    split_ifs with hle
    · rw [hb]
      exact ⟨_, _, rfl⟩
    · obtain ⟨c, hc⟩ := harrayInsert_ok i (some e) hf h0 hl
      rw [hc]
      exact ⟨_, _, rfl⟩

/-! ## Allocations that are powers of two -/

/-- The allocation is a power of two that an `unsigned` holds. -/
def Harray.Binary (a : Harray α) : Prop := ∃ j ≤ 31, a.cell.length = Nat.pow 2 j

theorem Harray.Binary.pos {a : Harray α} (h : a.Binary) : 0 < a.cell.length := by
  obtain ⟨j, -, hj⟩ := h
  rw [hj]
  exact Nat.pow_pos (by decide)

theorem Harray.Binary.le {a : Harray α} (h : a.Binary) : a.cell.length ≤ 2147483648 := by
  obtain ⟨j, hle, hj⟩ := h
  rw [hj]
  exact Nat.pow_le_pow_right (by decide) hle

/-- Twice the largest power is 0, and so is every further double. -/
theorem doubleUntil_zero (fuel : Nat) {n : Nat} (h : 0 < n) : doubleUntil fuel 0 n = none := by
  induction fuel with
  | zero => rfl
  | succ fuel ih =>
    have hu : u32 (0 * 2) = 0 := rfl
    rw [doubleUntil, hu, if_pos h, ih]

theorem doubleUntil_largest {n : Nat} (h : 0 < n) : doubleUntil 33 2147483648 n = none := by
  have hu : u32 (2147483648 * 2) = 0 := rfl
  rw [doubleUntil, hu, if_pos h, doubleUntil_zero 32 h]

/-- Room for one element more than the allocation keeps it a power of two. -/
theorem harrayChkLength_binary {a b : Harray α} {n : Nat} (hf : a.Fits) (hb : a.Binary) (hn : n ≤ a.cell.length + 1)
    (h : harrayChkLength a n = .ok b) : b.Binary := by
  obtain ⟨j, hj, hcell⟩ := hb
  unfold harrayChkLength at h
  split_ifs at h with hfull
  · by_cases hlast : j = 31
    · have hlargest : a.cell.length = 2147483648 := by rw [hcell, hlast]
      rw [hlargest, doubleUntil_largest (by omega)] at h
      cases h
    · have hlt : a.cell.length < 2 ^ 31 := by
        rw [hcell]
        exact Nat.pow_lt_pow_right (by decide) (by omega)
      have hpos : 0 < a.cell.length := by
        rw [hcell]
        exact Nat.pow_pos (by decide)
      rw [doubleUntil_once hpos hn hlt] at h
      cases h
      have hdouble : Nat.pow 2 (j + 1) = Nat.pow 2 j * 2 := Nat.pow_succ 2 j
      refine ⟨j + 1, by omega, ?_⟩
      rw [List.length_append, List.length_take, List.length_replicate, Nat.min_eq_left hf]
      unfold Harray.Fits at hf
      omega
  · cases h
    exact ⟨j, hj, hcell⟩

theorem harrayPush_binary {a b : Harray α} {e : Option α} (hf : a.Fits) (hb : a.Binary) (h : harrayPush a e = .ok b) :
    b.Binary := by
  unfold harrayPush harraySet at h
  simp only [bind, Except.bind] at h
  cases hc : harrayChkLength a a.length with
  | error f => rw [hc] at h; cases h
  | ok c =>
    obtain ⟨j, hj, hcell⟩ := harrayChkLength_binary hf hb (Nat.le_succ_of_le hf) hc
    rw [hc] at h
    simp only at h
    split_ifs at h
    all_goals
      cases h
      exact ⟨j, hj, by rw [List.length_set, hcell]⟩

theorem harrayInsert_binary {a b : Harray α} {i : Nat} {e : Option α} (hf : a.Fits) (hb : a.Binary)
    (h : harrayInsert a i e = .ok b) : b.Binary := by
  unfold harrayInsert at h
  split_ifs at h with hi
  · cases h
    exact hb
  · simp only [bind, Except.bind] at h
    cases hc : harrayChkLength a (a.length + 1) with
    | error f => rw [hc] at h; cases h
    | ok c =>
      obtain ⟨j, hj, hcell⟩ := harrayChkLength_binary hf hb (Nat.succ_le_succ hf) hc
      have hlen := (harrayChkLength_spec hf hc).1
      rw [hc] at h
      simp only [hlen] at h
      split_ifs at h with hle
      cases h
      exact ⟨j, hj, by rw [List.length_set, length_memmove hle (by omega), hcell]⟩

theorem harrayInsertSorted_binary {a b : Harray α} {e : α} {compare : α → α → Int} {k : Nat} (hf : a.Fits)
    (hb : a.Binary) (h : harrayInsertSorted a e compare = .ok (k, b)) : b.Binary := by
  unfold harrayInsertSorted at h
  simp only [bind, Except.bind] at h
  split_ifs at h
  · split at h
    · cases h
    · rename_i c hc
      cases h
      exact harrayPush_binary hf hb hc
  · split at h
    · cases h
    · split_ifs at h
      · split at h
        · cases h
        · rename_i c hc
          cases h
          exact harrayPush_binary hf hb hc
      · split at h
        · cases h
        · rename_i c hc
          cases h
          exact harrayInsert_binary hf hb hc

end Hmon
