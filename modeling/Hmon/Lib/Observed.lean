import Hmon.Lib.Lts

/-!
# A system seen through another

A map `f` of the states of a system `A` into those of a smaller system `B`; of a label of `A` a label of `B` is seen, or
nothing.

* `Lts.observed` : what is seen of a run;
* `Lts.SeenAs` : a step of `A` is the step of `B` that is seen, or leaves the state of `B` alone;
* `SeenAs.exec` : **a run of `A` is a run of `B` over what is seen of it**;
* `exec_relation` : a preorder that the steps of a system keep, its runs keep.
-/

namespace Hmon.Lib.Lts

variable {S L S' L' : Type}

/-- What is seen of the run over a list of labels, as far as it goes. -/
def observed (A : Lts S L) (obs : S → L → Option L') : S → List L → List L'
  | _, [] => []
  | s, l :: ls => (obs s l).toList ++ (A.next s l).elim [] fun s' => observed A obs s' ls

/-- From the states of an invariant, a step of `A` is through `f` the step of `B` that is seen, or none. -/
structure SeenAs (A : Lts S L) (B : Lts S' L') (I : S → Prop) (f : S → S') (obs : S → L → Option L') : Prop where
  keeps : ∀ {s l s'}, I s → A.next s l = some s' → I s'
  seen : ∀ {s l s'}, I s → A.next s l = some s' → B.exec (f s) (obs s l).toList = some (f s')

variable {A : Lts S L} {B : Lts S' L'} {I : S → Prop} {f : S → S'} {obs : S → L → Option L'}

theorem SeenAs.exec (h : SeenAs A B I f obs) {s s' : S} {ls : List L} (hs : I s) (he : A.exec s ls = some s') :
    B.exec (f s) (A.observed obs s ls) = some (f s') := by
  induction ls generalizing s with
  | nil =>
    rw [exec_nil, Option.some.injEq] at he
    rw [he]
    rfl
  | cons l ls ih =>
    obtain ⟨s₁, hn, he⟩ := exec_cons_eq_some.mp he
    unfold observed
    rw [exec_append, h.seen hs hn, hn]
    exact ih (h.keeps hs hn) he

/-- A reflexive and transitive relation that the steps of a system keep, its runs keep. -/
theorem exec_relation {R : S → S → Prop} (hrefl : ∀ s, R s s) (htrans : ∀ s t u, R s t → R t u → R s u)
    (hstep : ∀ s l s', A.next s l = some s' → R s s') {s s' : S} {ls : List L} (he : A.exec s ls = some s') :
    R s s' := by
  induction ls generalizing s with
  | nil =>
    rw [exec_nil, Option.some.injEq] at he
    exact he ▸ hrefl s
  | cons l ls ih =>
    obtain ⟨s₁, hn, he⟩ := exec_cons_eq_some.mp he
    exact htrans _ _ _ (hstep s l s₁ hn) (ih he)

end Hmon.Lib.Lts
