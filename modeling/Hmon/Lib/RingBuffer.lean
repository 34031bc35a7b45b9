import Mathlib.Data.List.Nodup
import Mathlib.Data.List.Perm.Subperm
import Mathlib.Data.Nat.ModEq

/-!
# Ring buffers that keep the most recent elements

An element pushed as the `k`-th goes to slot `k % w`.

* `RingBuffer` : the number of elements pushed and the contents of the slots; `RingBuffer.push`, `RingBuffer.pushAll`;
* `pushAll_slot_of_recent` : each of the last `w` elements is in its slot;
* `pushAll_slot_age` : how many newer elements the element in a slot has;
* `slots_perm_recent` : the slots hold the last `w` elements, each exactly once.
-/

namespace Hmon.Lib

structure RingBuffer (α : Type) where
  count : Nat
  slot : Nat → Option α

namespace RingBuffer
variable {α : Type} {w : Nat} {r : RingBuffer α}

def empty : RingBuffer α := ⟨0, fun _ => none⟩

def push (w : Nat) (r : RingBuffer α) (x : α) : RingBuffer α :=
  ⟨r.count + 1, Function.update r.slot (r.count % w) (some x)⟩

def pushAll (w : Nat) : RingBuffer α → List α → RingBuffer α
  | r, [] => r
  | r, x :: xs => pushAll w (r.push w x) xs

theorem pushAll_append (r : RingBuffer α) (xs ys : List α) :
    r.pushAll w (xs ++ ys) = (r.pushAll w xs).pushAll w ys := by
  induction xs generalizing r with
  | nil => rfl
  | cons x xs ih => exact ih (r.push w x)

/-- A push leaves the other slots alone. -/
theorem push_slot_ne {x : α} {i : Nat} (h : i ≠ r.count % w) : (r.push w x).slot i = r.slot i :=
  Function.update_of_ne h ..

theorem pushAll_count (r : RingBuffer α) (xs : List α) : (r.pushAll w xs).count = r.count + xs.length := by
  induction xs generalizing r with
  | nil => rfl
  | cons x xs ih =>
    rw [pushAll, ih, List.length_cons]
    simp only [push]
    omega

/-- A slot that no push reaches keeps its contents. -/
theorem pushAll_slot_of_unreached {xs : List α} {i : Nat}
    (h : ∀ k < xs.length, (r.count + k) % w ≠ i) : (r.pushAll w xs).slot i = r.slot i := by
  induction xs generalizing r with
  | nil => rfl
  | cons x xs ih =>
    rw [pushAll, ih, push_slot_ne]
    · exact fun hi => h 0 (Nat.succ_pos _) hi.symm
    · intro k hk
      have := h (k + 1) (Nat.succ_lt_succ hk)
      simp only [push]
      rwa [Nat.add_assoc, Nat.add_comm 1 k]

/-- Two numbers less than `w` apart go to different slots. -/
theorem mod_ne_of_lt {k j : Nat} (hj : k < j) (hw : j < k + w) : j % w ≠ k % w := by
  intro he
  have hd : w ∣ j - k := (Nat.modEq_iff_dvd' hj.le).mp he.symm
  exact absurd (Nat.le_of_dvd (by omega) hd) (by omega)

/-- **Each of the last `w` elements is in its slot.** -/
theorem pushAll_slot_of_recent {xs : List α} {k : Nat} (hk : k < xs.length) (hw : xs.length ≤ k + w) :
    ((empty : RingBuffer α).pushAll w xs).slot (k % w) = xs[k]? := by
  obtain ⟨pre, x, post, rfl, rfl⟩ : ∃ pre x post, xs = pre ++ x :: post ∧ pre.length = k :=
    ⟨xs.take k, xs[k], xs.drop (k + 1), by simp, by simp [hk.le]⟩
  have hcount : ((empty : RingBuffer α).pushAll w pre).count = pre.length := by
    rw [pushAll_count]
    simp [empty]
  rw [pushAll_append, pushAll, pushAll_slot_of_unreached, List.getElem?_append_right le_rfl]
  · simp [push, hcount]
  · intro j hj
    simp only [push, hcount]
    rw [List.length_append, List.length_cons] at hw
    exact mod_ne_of_lt (by omega) (by omega)

/-- The element in slot `i` is the one before which `(n - 1 - i) % w` of the `n` elements are newer. -/
theorem pushAll_slot_age {xs : List α} {i : Nat} (hi : i < min w xs.length) :
    ((empty : RingBuffer α).pushAll w xs).slot i = xs[xs.length - 1 - (xs.length - 1 - i) % w]? := by
  have hw : 0 < w := by omega
  have hmod := Nat.mod_lt (xs.length - 1 - i) hw
  have hdm := Nat.div_add_mod' (xs.length - 1 - i) w
  have hslot : (xs.length - 1 - (xs.length - 1 - i) % w) % w = i := by
    rw [show xs.length - 1 - (xs.length - 1 - i) % w = i + (xs.length - 1 - i) / w * w by omega,
      Nat.add_mul_mod_self_right]
    exact Nat.mod_eq_of_lt (by omega)
  have hlt : xs.length - 1 - (xs.length - 1 - i) % w < xs.length := by omega
  have hrecent := pushAll_slot_of_recent hlt (show xs.length ≤ xs.length - 1 - (xs.length - 1 - i) % w + w by omega)
  rwa [hslot] at hrecent

/-- The slots of the last `w` of `n` elements are the first ones, each once. -/
theorem recent_slots (n w : Nat) :
    ((List.range' (n - min w n) (min w n)).map (· % w)).Perm (List.range (min w n)) := by
  have hnodup : ((List.range' (n - min w n) (min w n)).map (· % w)).Nodup := by
    refine List.Nodup.map_on ?_ List.nodup_range'
    intro a ha b hb he
    simp only [List.mem_range'_1] at ha hb
    by_contra hne
    rcases Nat.lt_or_gt_of_ne hne with hlt | hlt
    · exact mod_ne_of_lt hlt (by omega) he.symm
    · exact mod_ne_of_lt hlt (by omega) he
  refine (List.subperm_of_subset hnodup ?_).perm_of_length_le (by simp)
  intro i hi
  obtain ⟨k, hk, rfl⟩ := List.mem_map.mp hi
  simp only [List.mem_range'_1] at hk
  rw [List.mem_range]
  rcases Nat.le_total w n with hwn | hwn
  · rw [Nat.min_eq_left hwn] at hk ⊢
    exact Nat.mod_lt k (by omega)
  · rw [Nat.min_eq_right hwn] at hk ⊢
    exact (Nat.mod_le k w).trans_lt (by omega)

/-- **The slots hold the last `w` elements, each exactly once.** -/
theorem slots_perm_recent (w : Nat) (xs : List α) :
    ((List.range (min w xs.length)).map ((empty : RingBuffer α).pushAll w xs).slot).Perm
      ((xs.drop (xs.length - w)).map some) := by
  refine ((recent_slots xs.length w).symm.map _).trans (List.Perm.of_eq ?_)
  rw [List.map_map]
  refine List.ext_getElem (by simp; omega) fun i hi _ => ?_
  have hi : i < min w xs.length := by simpa using hi
  simp only [List.getElem_map, List.getElem_range', List.getElem_drop, Function.comp_apply]
  rw [pushAll_slot_of_recent (by omega) (by omega), List.getElem?_eq_getElem (by omega)]
  congr 2
  omega

end RingBuffer
end Hmon.Lib
