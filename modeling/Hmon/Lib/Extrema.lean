import Mathlib.Order.Defs.Unbundled
import Mathlib.Data.List.Basic

/-!
# Running extrema

A fold that keeps the last element of a strict total order; with the order reversed it keeps the first.

* `later r x s` : the later of two elements; `Last r x xs` : `x` is an element of `xs` that none comes after;
* `foldl_later` : the fold is the last of its start and the elements;
* `last_foldl_iff` : **it is the last of the elements exactly when one of them does not come before the start**.
-/

namespace Hmon.Lib

variable {α : Type} (r : α → α → Prop) [DecidableRel r]

/-- The later of two elements, where `r s x` says that `s` comes before `x`. -/
def later (x s : α) : α := if r s x then x else s

/-- An element that no other comes after. -/
def Last (r : α → α → Prop) (x : α) (xs : List α) : Prop := x ∈ xs ∧ ∀ y ∈ xs, ¬ r x y

variable {r} [IsStrictTotalOrder α r] {x : α} {xs : List α}

omit [IsStrictTotalOrder α r] in
theorem later_mem (x s : α) : later r x s = x ∨ later r x s = s := by
  unfold later
  split_ifs
  · exact Or.inl rfl
  · exact Or.inr rfl

omit [DecidableRel r] in
/-- What does not come before something later does not come before something earlier. -/
theorem not_before_trans {a b c : α} (hab : ¬ r a b) (hbc : ¬ r b c) : ¬ r a c := by
  intro hac
  rcases trichotomous_of r a b with h | h | h
  · exact hab h
  · exact hbc (h ▸ hac)
  · exact hbc (trans_of r h hac)

theorem later_last (x s : α) : ¬ r (later r x s) x ∧ ¬ r (later r x s) s := by
  unfold later
  split_ifs with h
  · exact ⟨irrefl_of r x, fun hx => irrefl_of r x (trans_of r hx h)⟩
  · exact ⟨h, irrefl_of r s⟩

/-- The fold is the last of its start and the elements. -/
theorem foldl_later (x : α) (xs : List α) : Last r (xs.foldl (later r) x) (x :: xs) := by
  induction xs generalizing x with
  | nil =>
    refine ⟨List.mem_cons_self, fun y hy => ?_⟩
    rw [List.mem_singleton.mp hy]
    exact irrefl_of r x
  | cons s xs ih =>
    obtain ⟨hmem, hlast⟩ := ih (later r x s)
    obtain ⟨hx, hs⟩ := later_last (r := r) x s
    have hstart := hlast _ List.mem_cons_self
    refine ⟨?_, fun y hy => ?_⟩
    · rw [List.foldl_cons]
      rcases List.mem_cons.mp hmem with h | h
      · rw [h]
        rcases later_mem (r := r) x s with h' | h'
        · rw [h']
          exact List.mem_cons_self
        · rw [h']
          exact List.mem_cons_of_mem _ List.mem_cons_self
      · exact List.mem_cons_of_mem _ (List.mem_cons_of_mem _ h)
    · rw [List.foldl_cons]
      rcases List.mem_cons.mp hy with rfl | hy
      · exact not_before_trans hstart hx
      rcases List.mem_cons.mp hy with rfl | hy
      · exact not_before_trans hstart hs
      · exact hlast y (List.mem_cons_of_mem _ hy)

/-- **The fold is the last of the elements exactly when one of them does not come before its start.** -/
theorem last_foldl_iff : Last r (xs.foldl (later r) x) xs ↔ ∃ v ∈ xs, ¬ r v x := by
  obtain ⟨hmem, hlast⟩ := foldl_later (r := r) x xs
  constructor
  · rintro ⟨hin, -⟩
    exact ⟨_, hin, hlast x List.mem_cons_self⟩
  · rintro ⟨v, hv, hvx⟩
    refine ⟨?_, fun y hy => hlast y (List.mem_cons_of_mem x hy)⟩
    rcases List.mem_cons.mp hmem with h | h
    · -- the start is the last element, so it is `v`
      have hxv : ¬ r x v := h ▸ hlast v (List.mem_cons_of_mem x hv)
      rcases trichotomous_of r x v with h' | h' | h'
      · exact absurd h' hxv
      · rw [h, h']
        exact hv
      · exact absurd h' hvx
    · exact h

end Hmon.Lib
