import Mathlib.Data.List.Basic

/-!
# Pointers that are allocated, used and freed

* `Touch P` : what a program does to a pointer;
* `Safe live ts` : no touch of `ts` meets NULL or a pointer that is not allocated, when `live` are allocated before;
* `afterAll live ts` : the pointers that are allocated after `ts`;
* `not_safe_use_freed` : a pointer that was freed is not used;
* `safe_deletions` : a list of pointers is deleted safely exactly when they are allocated and none occurs twice.
-/

namespace Hmon.Lib

/-- A touch of a pointer; `none` is NULL. -/
inductive Touch (P : Type)
  | alloc (p : P)
  | use (p : Option P)
  | free (p : P)

namespace Touch
variable {P : Type} [DecidableEq P]

/-- The pointers that are allocated afterwards. -/
def after (live : List P) : Touch P → List P
  | alloc p => p :: live
  | use _ => live
  | free p => live.filter (· ≠ p)

/-- The touched pointer is allocated. -/
def Ok (live : List P) : Touch P → Prop
  | alloc _ => True
  | use none => False
  | use (some p) => p ∈ live
  | free p => p ∈ live

end Touch

section
variable {P : Type} [DecidableEq P]

def Safe : List P → List (Touch P) → Prop
  | _, [] => True
  | live, t :: ts => t.Ok live ∧ Safe (t.after live) ts

/-- A pointer that was freed is not used. -/
theorem not_safe_use_freed {live : List P} {p : P} {ts : List (Touch P)} :
    ¬ Safe live (.free p :: .use (some p) :: ts) := by
  rintro ⟨-, hp, -⟩
  have hne := (List.mem_filter.mp hp).2
  simp at hne

/-- The pointers that are allocated after all touches. -/
def afterAll (live : List P) (ts : List (Touch P)) : List P := ts.foldl Touch.after live

theorem safe_append {live : List P} {ts ts' : List (Touch P)} :
    Safe live (ts ++ ts') ↔ Safe live ts ∧ Safe (afterAll live ts) ts' := by
  induction ts generalizing live with
  | nil => exact (and_iff_right trivial).symm
  | cons t ts ih =>
    show t.Ok live ∧ Safe (t.after live) (ts ++ ts') ↔ _
    rw [ih, ← and_assoc]
    rfl

theorem afterAll_append {live : List P} {ts ts' : List (Touch P)} :
    afterAll live (ts ++ ts') = afterAll (afterAll live ts) ts' := List.foldl_append

/-- Uses of the pointers `ps`. -/
def uses (ps : List P) : List (Touch P) := ps.map fun p => .use (some p)

@[simp] theorem afterAll_uses (live ps : List P) : afterAll live (uses ps) = live := by
  induction ps with
  | nil => rfl
  | cons p ps ih => exact ih

theorem safe_uses {live ps : List P} : Safe live (uses ps) ↔ ∀ p ∈ ps, p ∈ live := by
  induction ps with
  | nil => exact iff_of_true trivial fun p hp => absurd hp List.not_mem_nil
  | cons p ps ih =>
    rw [List.forall_mem_cons, ← ih]
    rfl

/-- Each of the pointers `ps` is used and then freed. -/
def deletions (ps : List P) : List (Touch P) := ps.flatMap fun p => [.use (some p), .free p]

theorem mem_afterAll_deletions {live ps : List P} {p : P} : p ∈ afterAll live (deletions ps) ↔ p ∈ live ∧ p ∉ ps := by
  induction ps generalizing live with
  | nil => exact (and_iff_left List.not_mem_nil).symm
  | cons q ps ih =>
    show p ∈ afterAll (live.filter (· ≠ q)) (deletions ps) ↔ _
    rw [ih, List.mem_filter, decide_eq_true_eq, List.mem_cons, not_or, and_assoc]

theorem safe_deletions {live ps : List P} : Safe live (deletions ps) ↔ ps.Nodup ∧ ∀ p ∈ ps, p ∈ live := by
  induction ps generalizing live with
  | nil => exact iff_of_true trivial ⟨List.nodup_nil, fun p hp => absurd hp List.not_mem_nil⟩
  | cons q ps ih =>
    show q ∈ live ∧ q ∈ live ∧ Safe (live.filter (· ≠ q)) (deletions ps) ↔ _
    rw [ih, List.nodup_cons, List.forall_mem_cons]
    constructor
    · rintro ⟨hq, -, hnd, hps⟩
      have hne : q ∉ ps := fun hmem => of_decide_eq_true (List.mem_filter.mp (hps q hmem)).2 rfl
      exact ⟨⟨hne, hnd⟩, hq, fun p hp => List.mem_of_mem_filter (hps p hp)⟩
    · rintro ⟨⟨hne, hnd⟩, hq, hps⟩
      refine ⟨hq, hq, hnd, fun p hp => List.mem_filter.mpr ⟨hps p hp, decide_eq_true ?_⟩⟩
      rintro rfl
      exact hne hp

end
end Hmon.Lib
