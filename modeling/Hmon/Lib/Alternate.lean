import Mathlib.Data.List.Basic

/-!
# Alternating lists

* `Alternates a b l` : the list is `a, b, a, b, …`;
* `alternates_concat_iff` : how such a list grows;
* `Alternates.getLast?_eq_iff` : its last element is `a` exactly when its length is odd.
-/

namespace Hmon.Lib

variable {α : Type} {a b x : α} {l : List α}

/-- The list alternates between `a` and `b`, beginning with `a`. -/
def Alternates (a b : α) (l : List α) : Prop := ∀ i (h : i < l.length), l[i] = if i % 2 = 0 then a else b

instance [DecidableEq α] : Decidable (Alternates a b l) :=
  inferInstanceAs (Decidable (∀ i (h : i < l.length), l[i] = if i % 2 = 0 then a else b))

theorem alternates_nil : Alternates a b [] := fun _ h => absurd h (Nat.not_lt_zero _)

theorem alternates_concat_iff :
    Alternates a b (l ++ [x]) ↔ Alternates a b l ∧ x = if l.length % 2 = 0 then a else b := by
  constructor
  · intro h
    refine ⟨fun i hi => ?_, ?_⟩
    · have hlt : i < (l ++ [x]).length := by rw [List.length_append]; omega
      rw [← h i hlt, List.getElem_append_left hi]
    · have hlt : l.length < (l ++ [x]).length := by rw [List.length_append, List.length_singleton]; omega
      rw [← h l.length hlt, List.getElem_append_right (Nat.le_refl _)]
      simp
  · rintro ⟨h, hx⟩ i hi
    rw [List.length_append, List.length_singleton] at hi
    by_cases hil : i < l.length
    · rw [List.getElem_append_left hil]
      exact h i hil
    · have he : i = l.length := by omega
      subst he
      rw [List.getElem_append_right (Nat.le_refl _)]
      simpa using hx

/-- In a list that alternates between two elements the last one tells the parity of the length. -/
theorem Alternates.getLast?_eq_iff (h : Alternates a b l) (hab : a ≠ b) :
    l.getLast? = some a ↔ l.length % 2 = 1 := by
  rw [List.getLast?_eq_getElem?]
  by_cases hl : l = []
  · simp [hl]
  · have hpos : 0 < l.length := List.length_pos_iff.mpr hl
    rw [List.getElem?_eq_getElem (by omega), Option.some.injEq, h]
    split_ifs with hp
    · exact iff_of_true rfl (by omega)
    · exact iff_of_false (Ne.symm hab) (by omega)

end Hmon.Lib
