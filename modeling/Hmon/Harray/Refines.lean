import Hmon.Harray
import Mathlib.Data.List.Forall2

/-!
# An array is a list, except for cells that come back

* `ArrayOp`, `call` : calls of the functions of `harray.c` on some arrays, `harray_dup` making one more;
* `listCall` : the same calls on plain lists; `Shows` : what `harray_length` and `harray_get` return;
* `Refines` : along a run the arrays show the lists, and the calls return what they return on lists;
* `CleanRun` : no call of `harray_set` meets a pointer between the length and its index;
* `refines_iff` : **a run refines the lists exactly when all its calls are clean**.
-/

namespace Hmon
open Harray

variable {α : Type}

/-! ## Calls -/

inductive ArrayOp (α : Type)
  | push (x : Option α)
  | pop
  | set (i : Nat) (x : Option α)
  | insert (i : Nat) (x : Option α)
  | remove (i : Int)
  | empty
  | dup

/-- A call on one array: the value returned, if the function returns one, the array, and the array that
`harray_dup` makes. -/
def ArrayOp.run (a : Harray α) : ArrayOp α → Except Fault (Option (Option α) × Harray α × List (Harray α))
  | push x => (harrayPush a x).map fun a => (none, a, [])
  | pop => .ok (some (harrayPop a).1, (harrayPop a).2, [])
  | set i x => (harraySet a i x).map fun r => (some r.1, r.2, [])
  | insert i x => (harrayInsert a i x).map fun a => (none, a, [])
  | remove i => .ok (some (harrayRemove a i).1, (harrayRemove a i).2, [])
  | empty => .ok (none, emptyHarray a, [])
  | dup => .ok (none, a, [harrayDup a])

/-- The call on a plain list. A NULL element is `none`. -/
def ArrayOp.onList (xs : List (Option α)) : ArrayOp α → Option (Option α) × List (Option α) × List (List (Option α))
  | push x => (none, xs ++ [x], [])
  | pop => (some xs.getLast?.join, xs.dropLast, [])
  | set i x =>
    if i < xs.length then (some xs[i]?.join, xs.set i x, [])
    else (some none, xs ++ List.replicate (i - xs.length) none ++ [x], [])
  | insert i x => (none, if i < xs.length then xs.insertIdx i x else xs, [])
  | remove i =>
    if i < 0 ∨ xs.length ≤ i.toNat then (some none, xs, []) else (some xs[i.toNat]?.join, xs.eraseIdx i.toNat, [])
  | empty => (none, [], [])
  | dup => (none, xs, [xs])

/-- What is seen from outside is the list. -/
def Shows (a : Harray α) (xs : List (Option α)) : Prop := a.length = xs.length ∧ ∀ i, harrayGet a i = xs[i]?.join

/-! ## Runs -/

/-- The arrays show the lists, and go on to do so along the calls, each with the number of its array. A call of
`harray_set` whose index does not fit the allocation ends the run. -/
def Refines : List (Harray α) → List (List (Option α)) → List (Nat × ArrayOp α) → Prop
  | as, xss, [] => List.Forall₂ Shows as xss
  | as, xss, (k, op) :: calls =>
    List.Forall₂ Shows as xss ∧ ∀ a xs, as[k]? = some a → xss[k]? = some xs →
      (∀ r b new, op.run a = .ok (r, b, new) → r = (op.onList xs).1 ∧
        Refines (as.set k b ++ new) (xss.set k (op.onList xs).2.1 ++ (op.onList xs).2.2) calls) ∧
      ∀ f, op.run a = .error f → ∃ i x, op = .set i x ∧ a.cell.length ≤ i

/-- There is room for `n` elements more than the length, or doubling the allocation makes room. -/
def Room (a : Harray α) (length : Nat) : Prop :=
  length < a.cell.length ∨ ∃ n, doubleUntil 33 a.cell.length length = some n ∧ a.length < n

/-- What a call asks of the array that it is made on. -/
def ArrayOp.Clean (a : Harray α) : ArrayOp α → Prop
  | push _ => Room a a.length
  | insert i _ => i < a.length → Room a (a.length + 1)
  | set i _ => i < a.cell.length → ∀ j, a.length ≤ j → j ≤ i → a.cell[j]?.join = none
  | _ => True

/-- All calls of a run are clean, up to a call of `harray_set` whose index does not fit. -/
def CleanRun : List (Harray α) → List (Nat × ArrayOp α) → Prop
  | _, [] => True
  | as, (k, op) :: calls => ∀ a, as[k]? = some a → op.Clean a ∧
      ∀ r b new, op.run a = .ok (r, b, new) → CleanRun (as.set k b ++ new) calls

/-! ## One call -/

section Call
variable {a b c : Harray α} {xs : List (Option α)} {x r : Option α} {i : Nat}

/-- The cells below the length are the list. -/
structure Rel (a : Harray α) (xs : List (Option α)) : Prop where
  fits : a.Fits
  elems : a.elems = xs

theorem Rel.length (h : Rel a xs) : a.length = xs.length := by rw [← h.elems, length_elems h.fits]

theorem Rel.cell (h : Rel a xs) (hi : i < a.length) : a.cell[i]? = xs[i]? := by
  rw [← h.elems, Harray.elems, List.getElem?_take, if_pos hi]

theorem Rel.get (h : Rel a xs) (i : Nat) : harrayGet a i = xs[i]?.join := by
  unfold harrayGet
  split_ifs with hi
  · rw [List.getElem?_eq_none (by rw [← h.length]; exact hi)]
    rfl
  · rw [h.cell (not_le.mp hi)]

theorem Rel.shows (h : Rel a xs) : Shows a xs := ⟨h.length, h.get⟩

/-- An array with other cells below the length is seen. -/
theorem Rel.of_shows {ys : List (Option α)} (h : Rel a xs) (hs : Shows a ys) : xs = ys := by
  have hlen : xs.length = ys.length := h.length.symm.trans hs.1
  refine List.ext_getElem? fun i => ?_
  by_cases hi : i < xs.length
  · have hget := (h.get i).symm.trans (hs.2 i)
    rw [List.getElem?_eq_getElem hi, List.getElem?_eq_getElem (hlen ▸ hi)] at hget ⊢
    exact congrArg some hget
  · rw [List.getElem?_eq_none (not_lt.mp hi), List.getElem?_eq_none (hlen ▸ not_lt.mp hi)]

theorem newHarray_rel (n : Nat) : Rel (newHarray n : Harray α) [] :=
  ⟨newHarray_fits n, by simp [newHarray, Harray.elems]⟩

theorem harrayPop_rel (h : Rel a xs) : (harrayPop a).1 = xs.getLast?.join ∧ Rel (harrayPop a).2 xs.dropLast := by
  unfold harrayPop
  have hlen := h.length
  split_ifs with h0
  · have hxs : xs = [] := List.length_eq_zero_iff.mp (hlen ▸ h0)
    subst hxs
    exact ⟨rfl, h⟩
  · refine ⟨?_, ⟨(Nat.sub_le _ _).trans h.fits, ?_⟩⟩
    · rw [h.cell (by omega), List.getLast?_eq_getElem?, hlen]
    · rw [Harray.elems, List.dropLast_eq_take, ← hlen, ← h.elems, Harray.elems, List.take_take,
        Nat.min_eq_left (Nat.sub_le _ _)]

theorem emptyHarray_rel (a : Harray α) : Rel (emptyHarray a) [] := ⟨Nat.zero_le _, rfl⟩

theorem harrayDup_rel (h : Rel a xs) : Rel (harrayDup a) xs := by
  have hlen : (a.cell.take a.length).length = a.length := by rw [List.length_take, Nat.min_eq_left h.fits]
  refine ⟨?_, ?_⟩
  · show a.length ≤ (a.cell.take a.length ++ _).length
    rw [List.length_append, hlen]
    exact Nat.le_add_right _ _
  · show (a.cell.take a.length ++ _).take a.length = xs
    rw [List.take_append_of_le_length hlen.ge, List.take_take, Nat.min_self]
    exact h.elems

theorem harrayRemove_rel (h : Rel a xs) {k : Nat} (hk : k < a.length) :
    Rel ⟨memmove a.cell k (k + 1) (a.length - k - 1), a.length - 1⟩ (xs.eraseIdx k) := by
  have hf := h.fits
  unfold Harray.Fits at hf
  have htake : (a.cell.take k).length = k := by
    rw [List.length_take]
    omega
  have hdrop : ((a.cell.drop (k + 1)).take (a.length - k - 1)).length = a.length - k - 1 := by
    rw [List.length_take, List.length_drop]
    omega
  refine ⟨?_, ?_⟩
  · show a.length - 1 ≤ (memmove a.cell k (k + 1) (a.length - k - 1)).length
    simp only [memmove, List.length_append, htake, hdrop, List.length_drop]
    omega
  · have hsum : a.length - 1 = (a.cell.take k ++ (a.cell.drop (k + 1)).take (a.length - k - 1)).length := by
      rw [List.length_append, htake, hdrop]
      omega
    show (memmove a.cell k (k + 1) (a.length - k - 1)).take (a.length - 1) = xs.eraseIdx k
    unfold memmove
    rw [List.take_append_of_le_length hsum.le, hsum, List.take_length, ← h.elems, Harray.elems,
      List.eraseIdx_eq_take_drop_succ, List.take_take, Nat.min_eq_left hk.le, List.drop_take, Nat.sub_sub]

/-- The pointer in a cell above the length when `harray_set` reaches the index: growth clears the cells. -/
def stale (a : Harray α) (i j : Nat) : Option α := if i < a.cell.length then a.cell[j]?.join else none

theorem chkLength_cells (hf : a.Fits) (h : harrayChkLength a i = .ok c) (j : Nat) :
    c.cell[j]?.join = if j < a.length then a.cell[j]?.join else stale a i j := by
  unfold harrayChkLength at h
  unfold stale
  split_ifs at h with hn
  · rw [if_neg (not_lt.mpr hn)]
    split at h
    · cases h
    · cases h
      have hlen : (a.cell.take a.length).length = a.length := by rw [List.length_take, Nat.min_eq_left hf]
      simp only [List.getElem?_append, hlen]
      split_ifs with hj
      · rw [List.getElem?_take, if_pos hj]
      · rw [List.getElem?_replicate]
        split_ifs <;> rfl
  · cases h
    rw [if_pos (not_le.mp hn), ite_self]

theorem harraySet_lt (h : Rel a xs) (hi : i < a.length) (x : Option α) :
    ∃ b, harraySet a i x = .ok (xs[i]?.join, b) ∧ Rel b (xs.set i x) := by
  have hlt : i < a.cell.length := hi.trans_le h.fits
  have hchk : harrayChkLength a i = .ok a := if_neg (not_le.mpr hlt)
  unfold harraySet
  rw [hchk]
  simp only [bind, Except.bind, if_pos hlt, if_neg (not_le.mpr hi), h.cell hi]
  refine ⟨_, rfl, ⟨?_, ?_⟩⟩
  · simp only [Harray.Fits, List.length_set]
    exact h.fits
  · simp only [Harray.elems, List.take_set]
    exact congrArg (·.set i x) h.elems

/-- Setting a cell above the length: what it returns, and what is seen behind it. -/
theorem harraySet_ge (hf : a.Fits) (hi : a.length ≤ i) (hs : harraySet a i x = .ok (r, b)) : r = stale a i i ∧ b.Fits ∧
    b.length = i + 1 ∧ ∀ j, harrayGet b j =
      if j < a.length then harrayGet a j else if j < i then stale a i j else if j = i then x else none := by
  unfold harraySet at hs
  simp only [bind, Except.bind] at hs
  split at hs
  · cases hs
  · rename_i c hc
    obtain ⟨hlen, -, -⟩ := harrayChkLength_spec hf hc
    have hcells := chkLength_cells hf hc
    split_ifs at hs with hlt hle
    · cases hs
      refine ⟨?_, ?_, rfl, fun j => ?_⟩
      · rw [hcells, if_neg (not_lt.mpr hi)]
      · simp only [Harray.Fits, List.length_set]
        exact hlt
      · simp only [harrayGet, List.getElem?_set]
        rcases lt_trichotomy j i with hj | rfl | hj
        · rw [if_neg (by omega), if_neg (by omega), hcells, if_pos hj]
          by_cases hja : j < a.length
          · rw [if_pos hja, if_pos hja, if_neg (not_le.mpr hja)]
          · rw [if_neg hja, if_neg hja]
        · rw [if_neg (by omega), if_pos rfl, if_pos hlt, if_neg (not_lt.mpr hi), if_neg (lt_irrefl _), if_pos rfl]
          rfl
        · rw [if_pos (by omega), if_neg (by omega), if_neg (by omega), if_neg (by omega)]
    · omega

theorem rel_of_shows (hf : a.Fits) (hs : Shows a xs) : Rel a xs :=
  ⟨hf, (Rel.mk hf rfl).of_shows hs⟩

/-- The padded list. -/
theorem padded_get (xs : List (Option α)) (hi : xs.length ≤ i) (x : Option α) (j : Nat) :
    (xs ++ List.replicate (i - xs.length) none ++ [x])[j]?.join =
      if j < xs.length then xs[j]?.join else if j < i then none else if j = i then x else none := by
  have hlen : (xs ++ List.replicate (i - xs.length) none).length = i := by
    rw [List.length_append, List.length_replicate]
    omega
  rcases lt_trichotomy j i with hj | rfl | hj
  · rw [List.getElem?_append_left (by omega)]
    split_ifs with hx
    · rw [List.getElem?_append_left hx]
    · rw [List.getElem?_append_right (by omega), List.getElem?_replicate, if_pos (by omega)]
      rfl
  · rw [List.getElem?_append_right hlen.le, hlen, if_neg (by omega), if_neg (by omega), if_pos rfl, Nat.sub_self]
    rfl
  · rw [List.getElem?_eq_none (by rw [List.length_append, hlen, List.length_singleton]; omega), if_neg (by omega),
      if_neg (by omega), if_neg (by omega)]
    rfl

/-- The padded list is seen, and NULL returned, exactly when no pointer comes back. -/
theorem harraySet_padded (h : Rel a xs) (hi : a.length ≤ i) (hs : harraySet a i x = .ok (r, b)) :
    r = none ∧ Rel b (xs ++ List.replicate (i - xs.length) none ++ [x]) ↔
      ∀ j, a.length ≤ j → j ≤ i → stale a i j = none := by
  obtain ⟨hr, hfit, hlen, hget⟩ := harraySet_ge h.fits hi hs
  have hxs : xs.length ≤ i := h.length ▸ hi
  constructor
  · rintro ⟨rfl, hb⟩ j hj hji
    rcases hji.lt_or_eq with hji | rfl
    · have hj' := (hget j).symm.trans (hb.get j)
      rw [padded_get xs hxs, if_neg (not_lt.mpr hj), if_pos hji, if_neg (by rw [← h.length]; omega), if_pos hji] at hj'
      exact hj'
    · exact hr.symm
  · intro hclean
    refine ⟨hr.trans (hclean i hi le_rfl), rel_of_shows hfit ⟨?_, fun j => ?_⟩⟩
    · rw [hlen, List.length_append, List.length_append, List.length_replicate, List.length_singleton]
      omega
    · rw [hget, padded_get xs hxs, h.length, h.get]
      by_cases hj : j < xs.length
      · rw [if_pos hj, if_pos hj]
      · rw [if_neg hj, if_neg hj]
        split_ifs with hji
        · exact hclean j (by rw [h.length]; omega) hji.le
        · rfl
        · rfl

/-! ## Growth -/

/-- The array has room behind the check exactly when it had or doubling makes it. -/
theorem chkLength_room (hf : a.Fits) (n : Nat) (hn : a.length ≤ n) (hn' : n ≤ a.length + 1) :
    (∃ c, harrayChkLength a n = .ok c ∧ a.length < c.cell.length ∧ n ≤ c.cell.length) ↔ Room a n := by
  unfold harrayChkLength Room
  split_ifs with hc
  · rw [or_iff_right (not_lt.mpr hc)]
    have htake : (a.cell.take a.length).length = a.length := by rw [List.length_take, Nat.min_eq_left hf]
    cases hd : doubleUntil 33 a.cell.length n with
    | none => simp
    | some m =>
      have hlen : (a.cell.take a.length ++ List.replicate (m - a.length) none).length = a.length + (m - a.length) := by
        rw [List.length_append, htake, List.length_replicate]
      simp only [Except.ok.injEq, exists_eq_left', hlen, Option.some.injEq]
      omega
  · rw [or_iff_left_of_imp fun _ => not_le.mp hc]
    refine ⟨fun _ => not_le.mp hc, fun hlt => ⟨a, rfl, by omega, hlt.le⟩⟩

theorem harrayPush_room (hf : a.Fits) (x : Option α) : (∃ b, harrayPush a x = .ok b) ↔ Room a a.length := by
  rw [← chkLength_room hf a.length le_rfl (Nat.le_succ _)]
  unfold harrayPush harraySet
  constructor
  · rintro ⟨b, hb⟩
    simp only [bind, Except.bind] at hb
    cases hc : harrayChkLength a a.length with
    | error f => rw [hc] at hb; cases hb
    | ok c =>
      rw [hc] at hb
      by_cases hlt : a.length < c.cell.length
      · exact ⟨c, rfl, hlt, hlt.le⟩
      · simp only [if_neg hlt] at hb
        cases hb
  · rintro ⟨c, hc, hlt, -⟩
    rw [hc]
    simp only [bind, Except.bind, if_pos hlt]
    exact ⟨_, rfl⟩

theorem harrayInsert_room (hf : a.Fits) (hi : i < a.length) (x : Option α) :
    (∃ b, harrayInsert a i x = .ok b) ↔ Room a (a.length + 1) := by
  rw [← chkLength_room hf (a.length + 1) (Nat.le_succ _) le_rfl]
  unfold harrayInsert
  rw [if_neg (not_le.mpr hi)]
  constructor
  · rintro ⟨b, hb⟩
    simp only [bind, Except.bind] at hb
    cases hc : harrayChkLength a (a.length + 1) with
    | error f => rw [hc] at hb; cases hb
    | ok c =>
      rw [hc] at hb
      by_cases hle : c.length + 1 ≤ c.cell.length
      · rw [(harrayChkLength_spec hf hc).1] at hle
        exact ⟨c, rfl, hle, hle⟩
      · simp only [if_neg hle] at hb
        cases hb
  · rintro ⟨c, hc, -, hle⟩
    rw [hc]
    simp only [bind, Except.bind, (harrayChkLength_spec hf hc).1, if_pos hle]
    exact ⟨_, rfl⟩

/-! ## One call is right exactly when it is clean -/

/-- A call on an array that holds the list returns what it returns on the list and leaves what it leaves there. -/
def ArrayOp.Right (a : Harray α) (xs : List (Option α)) (op : ArrayOp α) : Prop :=
  (∀ r b new, op.run a = .ok (r, b, new) →
    r = (op.onList xs).1 ∧ Rel b (op.onList xs).2.1 ∧ List.Forall₂ Rel new (op.onList xs).2.2) ∧
  ∀ f, op.run a = .error f → ∃ i x, op = .set i x ∧ a.cell.length ≤ i

theorem harraySet_error {f : Fault} (hs : harraySet a i x = .error f) : a.cell.length ≤ i := by
  by_contra hlt
  have hchk : harrayChkLength a i = .ok a := if_neg hlt
  unfold harraySet at hs
  rw [hchk] at hs
  simp only [bind, Except.bind, if_pos (not_le.mp hlt)] at hs
  cases hs

theorem run_map {β γ : Type} {f : β → γ} {o : Except Fault β} {c : γ} (h : o.map f = .ok c) :
    ∃ b, o = .ok b ∧ f b = c := by
  cases o with
  | error e => cases h
  | ok b => exact ⟨b, rfl, Except.ok.inj h⟩

theorem run_map_error {β γ : Type} {f : β → γ} {o : Except Fault β} {e : Fault} (h : o.map f = .error e) :
    o = .error e := by
  cases o with
  | error e' => exact congrArg Except.error (Except.error.inj h)
  | ok b => cases h

theorem right_of_clean (h : Rel a xs) {op : ArrayOp α} (hc : op.Clean a) : op.Right a xs := by
  have hlen := h.length
  cases op with
  | push x =>
    obtain ⟨b, hb⟩ := (harrayPush_room h.fits x).mpr hc
    obtain ⟨he, hfit⟩ := harrayPush_spec h.fits hb
    refine ⟨fun r c new hr => ?_, fun f hf => ?_⟩
    · simp only [ArrayOp.run, hb, Except.map] at hr
      cases hr
      exact ⟨rfl, ⟨hfit, by rw [he, h.elems]; rfl⟩, .nil⟩
    · simp only [ArrayOp.run, hb, Except.map] at hf
      cases hf
  | pop =>
    obtain ⟨hr, hb⟩ := harrayPop_rel h
    refine ⟨fun r c new hrun => ?_, fun f hf => by cases hf⟩
    cases hrun
    exact ⟨congrArg some hr, hb, .nil⟩
  | set i x =>
    refine ⟨fun r b new hrun => ?_, fun f hf => ⟨i, x, rfl, ?_⟩⟩
    · obtain ⟨⟨r', c⟩, hs, hr⟩ := run_map hrun
      cases hr
      by_cases hi : i < xs.length
      · obtain ⟨c', hc', hrel⟩ := harraySet_lt h (hlen ▸ hi) x
        rw [hc'] at hs
        cases hs
        simp only [ArrayOp.onList, if_pos hi]
        exact ⟨trivial, hrel, .nil⟩
      · have hstale : ∀ j, a.length ≤ j → j ≤ i → stale a i j = none := fun j hj hji => by
          unfold stale
          split_ifs with hlt
          · exact hc hlt j hj hji
          · rfl
        obtain ⟨hnone, hrel⟩ := (harraySet_padded h (hlen ▸ not_lt.mp hi) hs).mpr hstale
        simp only [ArrayOp.onList, if_neg hi, hnone]
        exact ⟨trivial, hrel, .nil⟩
    · exact harraySet_error (run_map_error hf)
  | insert i x =>
    by_cases hi : i < a.length
    · obtain ⟨b, hb⟩ := (harrayInsert_room h.fits hi x).mpr (hc hi)
      obtain ⟨he, hfit⟩ := harrayInsert_spec h.fits hi hb
      refine ⟨fun r c new hr => ?_, fun f hf => ?_⟩
      · simp only [ArrayOp.run, hb, Except.map] at hr
        cases hr
        simp only [ArrayOp.onList, if_pos (hlen ▸ hi)]
        exact ⟨trivial, ⟨hfit, by rw [he, h.elems]⟩, .nil⟩
      · simp only [ArrayOp.run, hb, Except.map] at hf
        cases hf
    · have hb : harrayInsert a i x = .ok a := if_pos (not_lt.mp hi)
      refine ⟨fun r c new hr => ?_, fun f hf => ?_⟩
      · simp only [ArrayOp.run, hb, Except.map] at hr
        cases hr
        simp only [ArrayOp.onList, if_neg (hlen ▸ hi)]
        exact ⟨trivial, h, .nil⟩
      · simp only [ArrayOp.run, hb, Except.map] at hf
        cases hf
  | remove i =>
    refine ⟨fun r c new hrun => ?_, fun f hf => by cases hf⟩
    cases hrun
    by_cases hi : i < 0 ∨ a.length ≤ i.toNat
    · simp only [harrayRemove, if_pos hi, ArrayOp.onList, if_pos (hlen ▸ hi)]
      exact ⟨trivial, h, .nil⟩
    · have hlt : i.toNat < a.length := by omega
      simp only [harrayRemove, if_neg hi, ArrayOp.onList, if_neg (hlen ▸ hi), h.cell hlt]
      exact ⟨trivial, harrayRemove_rel h hlt, .nil⟩
  | empty =>
    refine ⟨fun r c new hrun => ?_, fun f hf => by cases hf⟩
    cases hrun
    exact ⟨rfl, emptyHarray_rel a, .nil⟩
  | dup =>
    refine ⟨fun r c new hrun => ?_, fun f hf => by cases hf⟩
    cases hrun
    exact ⟨rfl, h, .cons (harrayDup_rel h) .nil⟩

theorem clean_of_shows (h : Rel a xs) {op : ArrayOp α}
    (hok : ∀ r b new, op.run a = .ok (r, b, new) → r = (op.onList xs).1 ∧ Shows b (op.onList xs).2.1)
    (herr : ∀ f, op.run a = .error f → ∃ i x, op = .set i x ∧ a.cell.length ≤ i) : op.Clean a := by
  have hlen := h.length
  cases op with
  | push x =>
    refine (harrayPush_room h.fits x).mp ?_
    cases hb : harrayPush a x with
    | ok b => exact ⟨b, rfl⟩
    | error f =>
      obtain ⟨i, y, hop, -⟩ := herr f (by simp only [ArrayOp.run, hb, Except.map])
      cases hop
  | insert i x =>
    intro hi
    refine (harrayInsert_room h.fits hi x).mp ?_
    cases hb : harrayInsert a i x with
    | ok b => exact ⟨b, rfl⟩
    | error f =>
      obtain ⟨j, y, hop, -⟩ := herr f (by simp only [ArrayOp.run, hb, Except.map])
      cases hop
  | set i x =>
    intro hlt j hj hji
    have hi : a.length ≤ i := hj.trans hji
    cases hs : harraySet a i x with
    | error f => exact absurd (harraySet_error hs) (not_le.mpr hlt)
    | ok c =>
      obtain ⟨r, b⟩ := c
      obtain ⟨hret, hshow⟩ := hok (some r) b [] (by simp only [ArrayOp.run, hs, Except.map])
      simp only [ArrayOp.onList, if_neg (not_lt.mpr (hlen ▸ hi))] at hret hshow
      have hb : b.Fits := (harraySet_ge h.fits hi hs).2.1
      have hclean := (harraySet_padded h hi hs).mp ⟨Option.some.inj hret, rel_of_shows hb hshow⟩ j hj hji
      unfold stale at hclean
      rw [if_pos hlt] at hclean
      exact hclean
  | pop | remove | empty | dup => trivial

end Call

/-! ## Runs -/

section Run
variable {β γ : Type} {R S : β → γ → Prop}

theorem forall₂_get {bs : List β} {cs : List γ} (h : List.Forall₂ R bs cs) {k : Nat} {b : β} {c : γ}
    (hb : bs[k]? = some b) (hc : cs[k]? = some c) : R b c := by
  induction h generalizing k with
  | nil => cases hb
  | cons hr _ ih =>
    cases k with
    | zero =>
      cases hb
      cases hc
      exact hr
    | succ k => exact ih hb hc

theorem forall₂_set {bs : List β} {cs : List γ} (h : List.Forall₂ R bs cs) (k : Nat) {b : β} {c : γ} (hr : R b c) :
    List.Forall₂ R (bs.set k b) (cs.set k c) := by
  induction h generalizing k with
  | nil => exact .nil
  | cons hr' h ih =>
    cases k with
    | zero => exact .cons hr h
    | succ k => exact .cons hr' (ih k)

theorem forall₂_some {bs : List β} {cs : List γ} (h : List.Forall₂ R bs cs) {k : Nat} {b : β} (hb : bs[k]? = some b) :
    ∃ c, cs[k]? = some c := by
  have hk : k < cs.length := h.length_eq ▸ (List.getElem?_eq_some_iff.mp hb).1
  exact ⟨cs[k], List.getElem?_eq_getElem hk⟩

theorem set_append_get {bs new : List β} {k : Nat} {b : β} (hk : k < bs.length) : (bs.set k b ++ new)[k]? = some b := by
  rw [List.getElem?_append_left (by rwa [List.length_set]), List.getElem?_set_self hk]

end Run

theorem Refines.shows {as : List (Harray α)} {xss : List (List (Option α))} {calls : List (Nat × ArrayOp α)}
    (h : Refines as xss calls) : List.Forall₂ Shows as xss := by
  cases calls with
  | nil => exact h
  | cons c calls => exact h.1

/-- What a call makes of arrays that hold the lists. -/
theorem rel_call {as : List (Harray α)} {xss : List (List (Option α))} (h : List.Forall₂ Rel as xss) (k : Nat)
    {a b : Harray α} {xs : List (Option α)} {op : ArrayOp α} {r : Option (Option α)} {new : List (Harray α)}
    (hop : op.Right a xs) (hr : op.run a = .ok (r, b, new)) :
    List.Forall₂ Rel (as.set k b ++ new) (xss.set k (op.onList xs).2.1 ++ (op.onList xs).2.2) := by
  obtain ⟨-, hb, hnew⟩ := hop.1 r b new hr
  exact List.rel_append (forall₂_set h k hb) hnew

/-- Arrays that hold the lists: by induction on the calls, each of which leaves arrays that hold the lists again. -/
theorem refines_rel {as : List (Harray α)} {xss : List (List (Option α))} (h : List.Forall₂ Rel as xss)
    (calls : List (Nat × ArrayOp α)) : Refines as xss calls ↔ CleanRun as calls := by
  have hshow {as : List (Harray α)} {xss : List (List (Option α))} (h : List.Forall₂ Rel as xss) :
      List.Forall₂ Shows as xss := h.imp fun _ _ hr => hr.shows
  induction calls generalizing as xss with
  | nil => exact ⟨fun _ => trivial, fun _ => hshow h⟩
  | cons c calls ih =>
    obtain ⟨k, op⟩ := c
    constructor
    · intro hrun a ha
      obtain ⟨xs, hxs⟩ := forall₂_some h ha
      have hrel := forall₂_get h ha hxs
      obtain ⟨hok, herr⟩ := hrun.2 a xs ha hxs
      have hk : k < as.length := (List.getElem?_eq_some_iff.mp ha).1
      have hclean : op.Clean a := by
        refine clean_of_shows hrel (fun r b new hr => ?_) herr
        obtain ⟨hret, hnext⟩ := hok r b new hr
        exact ⟨hret, forall₂_get hnext.shows (set_append_get hk) (set_append_get (h.length_eq ▸ hk))⟩
      refine ⟨hclean, fun r b new hr => ?_⟩
      exact (ih (rel_call h k (right_of_clean hrel hclean) hr)).mp (hok r b new hr).2
    · intro hclean
      refine ⟨hshow h, fun a xs ha hxs => ?_⟩
      obtain ⟨hc, hnext⟩ := hclean a ha
      have hright := right_of_clean (forall₂_get h ha hxs) hc
      refine ⟨fun r b new hr => ⟨(hright.1 r b new hr).1, ?_⟩, hright.2⟩
      exact (ih (rel_call h k hright hr)).mpr (hnext r b new hr)

/-- **A run from a new array refines the list exactly when its calls are clean**: there is room for an element
that is added, and `harray_set` above the length meets no pointer that an earlier call left behind. -/
theorem refines_iff (n : Nat) (calls : List (Nat × ArrayOp α)) :
    Refines [newHarray n] [[]] calls ↔ CleanRun [newHarray n] calls :=
  refines_rel (.cons (newHarray_rel n) .nil) calls

/-- A popped element is returned by a call of `harray_set` at its index, where a list has none. -/
theorem popped_returned :
    ¬ ∀ (n : Nat) (calls : List (Nat × ArrayOp Nat)), Refines [newHarray n] [[]] calls := by
  intro h
  have hrun := (refines_rel (.cons (newHarray_rel 4) .nil) _).mp
    (h 4 [(0, .push (some 7)), (0, .pop), (0, .set 0 (some 8))])
  have hpush := (hrun (newHarray 4) rfl).2 _ _ _ rfl
  have hpop := (hpush _ rfl).2 _ _ _ rfl
  have hset := (hpop _ rfl).1 (by decide) 0 (by decide) (le_refl 0)
  cases hset

end Hmon
