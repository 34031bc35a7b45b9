import Mathlib.Logic.Relation

/-!
# Cycles in a wait-for relation

`R x y` says that `x` waits for `y`. A system that starts to wait adds one edge; one that lets a thread take what
others wait for redirects their edges to a thread that does not wait.

* `Acyclic R` : nobody waits, directly or through others, for itself;
* `Acyclic.redirect` : new edges to one `t` that does not wait make no cycle;
* `Acyclic.addEdge` : one new edge `t → u` makes no cycle unless `u` waits for `t` already.
-/

namespace Hmon.Lib
open Relation

variable {α : Type} {R R' : α → α → Prop} {t u : α}

def Acyclic (R : α → α → Prop) : Prop := ∀ x, ¬ TransGen R x x

theorem acyclic_of_no_edge (h : ∀ x y, ¬ R x y) : Acyclic R := by
  intro x hx
  obtain ⟨y, hxy, -⟩ := TransGen.head'_iff.mp hx
  exact h x y hxy

/-- Every edge of `R'` is one of `R` or leads to `t`, and `t` does not wait. -/
theorem Acyclic.redirect (h : Acyclic R) (hR : ∀ x y, R' x y → R x y ∨ y = t) (ht : ∀ y, ¬ R' t y) : Acyclic R' := by
  have hpath : ∀ x y, TransGen R' x y → TransGen R x y ∨ y = t := by
    intro x y hxy
    induction hxy with
    | single hxy => exact (hR _ _ hxy).imp_left TransGen.single
    | tail _ hyz ih =>
      -- the middle of the path waits, so it is not `t`
      rcases ih with hxy | rfl
      · exact (hR _ _ hyz).imp_left hxy.tail
      · exact absurd hyz (ht _)
  intro x hx
  rcases hpath x x hx with hx' | rfl
  · exact h x hx'
  · obtain ⟨y, hxy, -⟩ := TransGen.head'_iff.mp hx
    exact ht y hxy

/-- Every edge of `R'` is one of `R` or `t → u`, and `u` does not wait for `t`. -/
theorem Acyclic.addEdge (h : Acyclic R) (hR : ∀ x y, R' x y → R x y ∨ x = t ∧ y = u)
    (hu : ¬ ReflTransGen R u t) : Acyclic R' := by
  have hpath : ∀ x y, TransGen R' x y → TransGen R x y ∨ ReflTransGen R x t ∧ ReflTransGen R u y := by
    intro x y hxy
    induction hxy with
    | single hxy =>
      rcases hR _ _ hxy with hxy | ⟨rfl, rfl⟩
      · exact Or.inl (.single hxy)
      · exact Or.inr ⟨.refl, .refl⟩
    | tail _ hyz ih =>
      rcases hR _ _ hyz with hyz | ⟨rfl, rfl⟩
      · exact ih.imp (fun hxy => hxy.tail hyz) fun hxy => ⟨hxy.1, hxy.2.tail hyz⟩
      · rcases ih with hxy | ⟨hxt, -⟩
        · exact Or.inr ⟨hxy.to_reflTransGen, .refl⟩
        · exact Or.inr ⟨hxt, .refl⟩
  intro x hx
  rcases hpath x x hx with hx' | ⟨hxt, hux⟩
  · exact h x hx'
  · exact hu (hux.trans hxt)

/-- What waits for something else through a path has an edge, and so has what is waited for. -/
theorem not_reach_of_end (hne : u ≠ t) (h : (∀ y, ¬ R u y) ∨ ∀ x, ¬ R x t) : ¬ ReflTransGen R u t := by
  intro hut
  rcases h with h | h
  · rcases ReflTransGen.cases_head hut with rfl | ⟨y, huy, -⟩
    · exact hne rfl
    · exact h y huy
  · rcases ReflTransGen.cases_tail hut with rfl | ⟨x, -, hxt⟩
    · exact hne rfl
    · exact h x hxt

end Hmon.Lib
