import Mathlib.Data.List.Basic

/-!
# What stands before each entry of a log

* `Chronicle ok log` : every entry of the log is allowed by the entries before it;
* `chronicle_nil`, `chronicle_concat`, `Chronicle.left` : a log that grows at its end, and its beginnings;
* `prefix_unique` : an entry that stands in a log once has one place.
-/

namespace Hmon.Lib

variable {E : Type} {ok : List E → E → Prop} {log : List E} {e : E}

def Chronicle (ok : List E → E → Prop) (log : List E) : Prop :=
  ∀ before e after, log = before ++ e :: after → ok before e

theorem chronicle_nil : Chronicle ok [] := fun before _ _ h => by
  cases before <;> cases h

/-- A log grows by an entry that it allows. -/
theorem chronicle_concat (h : Chronicle ok log) (he : ok log e) : Chronicle ok (log ++ [e]) := by
  intro before e' after heq
  rcases List.eq_nil_or_concat after with rfl | ⟨after, last, rfl⟩
  · obtain ⟨rfl, h₂⟩ := List.append_inj' heq rfl
    cases h₂
    exact he
  · refine h before e' after ?_
    have hsplit : log ++ [e] = (before ++ e' :: after) ++ [last] := by simpa using heq
    exact (List.append_inj' hsplit rfl).1

theorem Chronicle.left {log' : List E} (h : Chronicle ok (log ++ log')) : Chronicle ok log := fun before e after heq =>
  h before e (after ++ log') (by rw [heq, List.append_assoc, List.cons_append])

/-- The part before an entry that does not stand in it. -/
theorem prefix_unique {before before' after after' : List E} (h : e ∉ before) (h' : e ∉ before')
    (heq : before ++ e :: after = before' ++ e :: after') : before = before' := by
  induction before generalizing before' with
  | nil =>
    cases before' with
    | nil => rfl
    | cons x before' =>
      cases heq
      exact absurd List.mem_cons_self h'
  | cons x before ih =>
    cases before' with
    | nil =>
      cases heq
      exact absurd List.mem_cons_self h
    | cons x' before' =>
      rw [List.cons_append, List.cons_append, List.cons.injEq] at heq
      rw [List.mem_cons, not_or] at h h'
      rw [heq.1, ih h.2 h'.2 heq.2]

end Hmon.Lib
