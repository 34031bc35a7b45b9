import Mathlib.Data.List.Basic

/-!
# What follows what in a list of things to do

* `Follows p qs l` : every `p` of the list has the `qs` somewhere behind it, in this order;
* `Follows.append`, `Follows.append_of_sublist`, `Follows.of_not_mem` : how such lists are built;
* `Follows.tail`, `Follows.head`, `Follows.mono`, `Follows.of_mem` : what is known while the list is worked off.
-/

namespace Hmon.Lib

variable {α : Type} {p : α} {qs : List α}

def Follows (p : α) (qs : List α) : List α → Prop
  | [] => True
  | x :: xs => (x = p → qs.Sublist xs) ∧ Follows p qs xs

namespace Follows
variable {l l' : List α} {x : α}

theorem tail (h : Follows p qs (x :: l)) : Follows p qs l := h.2

theorem head (h : Follows p qs (p :: l)) : qs.Sublist l := h.1 rfl

theorem mono {qs' : List α} (hq : qs'.Sublist qs) (h : Follows p qs l) : Follows p qs' l := by
  induction l with
  | nil => trivial
  | cons x l ih => exact ⟨fun hx => hq.trans (h.1 hx), ih h.2⟩

theorem of_not_mem (h : p ∉ l) : Follows p qs l := by
  induction l with
  | nil => trivial
  | cons x l ih =>
    rw [List.mem_cons, not_or] at h
    exact ⟨fun hx => absurd hx.symm h.1, ih h.2⟩

theorem append (h : Follows p qs l) (h' : Follows p qs l') : Follows p qs (l ++ l') := by
  induction l with
  | nil => exact h'
  | cons x l ih => exact ⟨fun hx => (h.1 hx).trans (List.sublist_append_left l l'), ih h.2⟩

/-- The second part is behind every `p` of the first. -/
theorem append_of_sublist (hq : qs.Sublist l') (h' : Follows p qs l') : Follows p qs (l ++ l') := by
  induction l with
  | nil => exact h'
  | cons x l ih => exact ⟨fun _ => hq.trans (List.sublist_append_right l l'), ih⟩

theorem of_mem (h : Follows p qs l) (hp : p ∈ l) : qs.Sublist l := by
  induction l with
  | nil => cases hp
  | cons x l ih =>
    rcases List.mem_cons.mp hp with rfl | hp
    · exact h.head.cons p
    · exact (ih h.tail hp).cons x

end Follows
end Hmon.Lib
