import Mathlib.Logic.Relation

/-!
# Labelled transition systems with guarded runs

A system is a partial step function `next : S → L → Option S`, so that a run over a list of labels can be
evaluated (`Lts.exec`).

* `Lts.Reach init ok` : the states reached from `init` by steps whose pre-state and label satisfy the guard `ok`;
* `Reach.invariant` : the induction rule; `Reach.mono`, `Reach.of_along` : weaker guards, evaluated runs;
* `Lts.tryAll` : the run in which a label that is not enabled changes nothing;
* `Lts.Along P` : `P` holds at every step of one run; `Along.exec_inv` : the invariant rule for one run;
* `Lts.AlongLog` : a guard that also sees a log of the steps before; `exec_good_iff` : a property of runs that is
  spoilt exactly by the steps outside such a guard;
* `Lts.Throughout I` : `I` holds in every state of one run; `throughout_iff` : exactly when its steps satisfy the guard;
* `Reach.map` : a simulation carries reachability to another system.
-/

namespace Hmon.Lib

/-- A transition system: `next s l` is the state after the step `l`, `none` where `l` is not enabled. -/
structure Lts (S L : Type) where
  next : S → L → Option S

namespace Lts
variable {S L : Type} (A : Lts S L)

/-- The run over a list of labels; `none` when some label is not enabled. -/
def exec : S → List L → Option S
  | s, [] => some s
  | s, l :: ls => (A.next s l).bind fun s' => exec s' ls

/-- The run over a list of labels in which a label that is not enabled changes nothing. -/
def tryAll : S → List L → S
  | s, [] => s
  | s, l :: ls => tryAll ((A.next s l).getD s) ls

/-- `P` holds of the pre-state and the label of every step of the run over `ls`. -/
def Along (P : S → L → Prop) : S → List L → Prop
  | _, [] => True
  | s, l :: ls => P s l ∧ ∀ s', A.next s l = some s' → Along P s' ls

/-- `P` holds of the log, the pre-state and the label of every step of the run over `ls`, where `record` is what a step
adds to the log. -/
def AlongLog {H : Type} (record : H → S → L → H) (P : H → S → L → Prop) : H → S → List L → Prop
  | _, _, [] => True
  | h, s, l :: ls => P h s l ∧ ∀ s', A.next s l = some s' → AlongLog record P (record h s l) s' ls

/-- `I` holds in every state of the run over `ls`, the first and the last included. -/
def Throughout (I : S → Prop) : S → List L → Prop
  | s, [] => I s
  | s, l :: ls => I s ∧ ∀ s', A.next s l = some s' → Throughout I s' ls

/-- The states reached from `init` by steps that satisfy the guard `ok`. -/
inductive Reach (init : S → Prop) (ok : S → L → Prop) : S → Prop
  | init {s : S} : init s → Reach init ok s
  | step {s s' : S} (l : L) : Reach init ok s → ok s l → A.next s l = some s' → Reach init ok s'

/-- No guard. -/
def always : S → L → Prop := fun _ _ => True

variable {A} {init init' : S → Prop} {ok ok' P : S → L → Prop}

/-! ## The induction rules -/

/-- **An inductive invariant holds of every reachable state.** -/
theorem Reach.invariant {I : S → Prop} (h0 : ∀ s, init s → I s)
    (hstep : ∀ s l s', I s → ok s l → A.next s l = some s' → I s') {s : S} (h : A.Reach init ok s) : I s := by
  induction h with
  | init hi => exact h0 _ hi
  | step l _ hok hn ih => exact hstep _ l _ ih hok hn

/-- The invariant rule when an earlier invariant `J` helps the step. -/
theorem Reach.invariant_of {I J : S → Prop} (hJ : ∀ s, A.Reach init ok s → J s) (h0 : ∀ s, init s → I s)
    (hstep : ∀ s l s', J s → I s → ok s l → A.next s l = some s' → I s') {s : S} (h : A.Reach init ok s) : I s := by
  induction h with
  | init hi => exact h0 _ hi
  | step l hr hok hn ih => exact hstep _ l _ (hJ _ hr) ih hok hn

theorem Reach.mono (hi : ∀ s, init s → init' s) (ho : ∀ s l, ok s l → ok' s l) {s : S} (h : A.Reach init ok s) :
    A.Reach init' ok' s := by
  induction h with
  | init h0 => exact .init (hi _ h0)
  | step l _ hok hn ih => exact .step l ih (ho _ _ hok) hn

/-! ## Runs over a list of labels -/

@[simp] theorem exec_nil (s : S) : A.exec s [] = some s := rfl

theorem exec_cons (s : S) (l : L) (ls : List L) :
    A.exec s (l :: ls) = (A.next s l).bind fun s' => A.exec s' ls := rfl

theorem exec_cons_eq_some {s s' : S} {l : L} {ls : List L} :
    A.exec s (l :: ls) = some s' ↔ ∃ s₁, A.next s l = some s₁ ∧ A.exec s₁ ls = some s' := by
  rw [exec_cons, Option.bind_eq_some_iff]

theorem exec_append (s : S) (ls ls' : List L) :
    A.exec s (ls ++ ls') = (A.exec s ls).bind fun s' => A.exec s' ls' := by
  induction ls generalizing s with
  | nil => rfl
  | cons l ls ih =>
    rw [List.cons_append, exec_cons, exec_cons, Option.bind_assoc]
    exact Option.bind_congr fun s' _ => ih s'

/-- An evaluated run whose steps satisfy the guard reaches its last state. -/
theorem Reach.of_along {s s' : S} {ls : List L} (h : A.Reach init ok s) (hok : A.Along ok s ls)
    (he : A.exec s ls = some s') : A.Reach init ok s' := by
  induction ls generalizing s with
  | nil => rw [exec_nil, Option.some.injEq] at he; exact he ▸ h
  | cons l ls ih =>
    obtain ⟨s₁, hn, he⟩ := exec_cons_eq_some.mp he
    exact ih (.step l h hok.1 hn) (hok.2 s₁ hn) he

/-- The invariant rule for one run whose steps all satisfy the guard. -/
theorem Along.exec_inv {I : S → Prop} (hstep : ∀ s l s', I s → ok s l → A.next s l = some s' → I s')
    {s s' : S} {ls : List L} (hs : I s) (hok : A.Along ok s ls) (he : A.exec s ls = some s') : I s' := by
  induction ls generalizing s with
  | nil => rw [exec_nil, Option.some.injEq] at he; exact he ▸ hs
  | cons l ls ih =>
    obtain ⟨s₁, hn, he⟩ := exec_cons_eq_some.mp he
    exact ih (hstep s l s₁ hs hok.1 hn) (hok.2 s₁ hn) he

theorem Along.always (s : S) (ls : List L) : A.Along always s ls := by
  induction ls generalizing s with
  | nil => trivial
  | cons l ls ih => exact ⟨trivial, fun s' _ => ih s'⟩

/-- An evaluated run reaches its last state. -/
theorem Reach.of_exec {s s' : S} {ls : List L} (h : A.Reach init Lts.always s) (he : A.exec s ls = some s') :
    A.Reach init Lts.always s' := h.of_along (Along.always s ls) he

theorem tryAll_append (s : S) (ls ls' : List L) : A.tryAll s (ls ++ ls') = A.tryAll (A.tryAll s ls) ls' := by
  induction ls generalizing s with
  | nil => rfl
  | cons l ls ih => exact ih _

/-- Trying a label whose guard holds is a step, or nothing. -/
theorem Reach.tryAll {s : S} {ls : List L} (h : A.Reach init ok s) (hok : ∀ s, ∀ l ∈ ls, ok s l) :
    A.Reach init ok (A.tryAll s ls) := by
  induction ls generalizing s with
  | nil => exact h
  | cons l ls ih =>
    refine ih ?_ fun s l' hl' => hok s l' (List.mem_cons_of_mem l hl')
    cases hn : A.next s l with
    | none => exact h
    | some s₁ => exact .step l h (hok s l List.mem_cons_self) hn

/-- The invariant rule for one run without a guard. -/
theorem exec_inv {I : S → Prop} (hstep : ∀ s l s', I s → A.next s l = some s' → I s')
    {s s' : S} {ls : List L} (hs : I s) (he : A.exec s ls = some s') : I s' :=
  Along.exec_inv (fun s l s' hI _ hn => hstep s l s' hI hn) hs (Along.always s ls) he

/-- A run that breaks the guard does so at some step. -/
theorem not_along {s s' : S} {ls : List L} (he : A.exec s ls = some s') (h : ¬ A.Along P s ls) :
    ∃ ls₁ l ls₂ s₁, ls = ls₁ ++ l :: ls₂ ∧ A.exec s ls₁ = some s₁ ∧ ¬ P s₁ l ∧ A.Along P s ls₁ := by
  induction ls generalizing s with
  | nil => exact absurd trivial h
  | cons l ls ih =>
    obtain ⟨s₁, hn, he⟩ := exec_cons_eq_some.mp he
    by_cases hp : P s l
    · have hrest : ¬ A.Along P s₁ ls := fun ha => h ⟨hp, fun s' hs' => by
        rw [hn, Option.some.injEq] at hs'; exact hs' ▸ ha⟩
      obtain ⟨ls₁, l', ls₂, s₂, rfl, he₂, hp', ha⟩ := ih he hrest
      refine ⟨l :: ls₁, l', ls₂, s₂, rfl, exec_cons_eq_some.mpr ⟨s₁, hn, he₂⟩, hp', hp, fun s' hs' => ?_⟩
      rw [hn, Option.some.injEq] at hs'; exact hs' ▸ ha
    · exact ⟨[], l, ls, s, rfl, rfl, hp, trivial⟩

/-- **A run is good exactly when its steps satisfy the guard**: the invariant `I` tells of each step whether it keeps
the run good, and nothing makes a run good again. -/
theorem exec_good_iff {H : Type} {record : H → S → L → H} {P : H → S → L → Prop} {I : H → S → Prop} {G : S → Prop}
    (hstep : ∀ h s l s', I h s → G s → A.next s l = some s' → I (record h s l) s' ∧ (G s' ↔ P h s l))
    (hbad : ∀ s l s', A.next s l = some s' → G s' → G s) {h : H} {s s' : S} {ls : List L} (hi : I h s) (hg : G s)
    (he : A.exec s ls = some s') : G s' ↔ A.AlongLog record P h s ls := by
  have back : ∀ {s s' : S} {ls : List L}, A.exec s ls = some s' → G s' → G s := by
    intro s s' ls he hg
    induction ls generalizing s with
    | nil => rw [exec_nil, Option.some.injEq] at he; exact he ▸ hg
    | cons l ls ih =>
      obtain ⟨s₁, hn, he⟩ := exec_cons_eq_some.mp he
      exact hbad s l s₁ hn (ih he)
  induction ls generalizing h s with
  | nil =>
    rw [exec_nil, Option.some.injEq] at he
    exact iff_of_true (he ▸ hg) trivial
  | cons l ls ih =>
    obtain ⟨s₁, hn, he⟩ := exec_cons_eq_some.mp he
    obtain ⟨hi₁, hiff⟩ := hstep h s l s₁ hi hg hn
    by_cases hp : P h s l
    · refine (ih hi₁ (hiff.mpr hp) he).trans ⟨fun ha => ⟨hp, fun s₂ hs₂ => ?_⟩, fun ha => ha.2 s₁ hn⟩
      rw [hn, Option.some.injEq] at hs₂
      exact hs₂ ▸ ha
    · exact iff_of_false (fun hg' => hp (hiff.mp (back he hg'))) fun ha => hp ha.1

/-- **`I` holds throughout a run exactly when its steps satisfy the guard**: they keep a stronger `J`, and a step
outside the guard breaks `I` at once. -/
theorem throughout_iff {I J : S → Prop} (hJ : ∀ s, J s → I s)
    (hstep : ∀ s l s', J s → A.next s l = some s' → (P s l → J s') ∧ (¬ P s l → ¬ I s')) {s : S} {ls : List L}
    (hs : J s) (he : (A.exec s ls).isSome) : A.Throughout I s ls ↔ A.Along P s ls := by
  induction ls generalizing s with
  | nil => exact iff_of_true (hJ s hs) trivial
  | cons l ls ih =>
    obtain ⟨sf, he⟩ := Option.isSome_iff_exists.mp he
    obtain ⟨s₁, hn, he⟩ := exec_cons_eq_some.mp he
    obtain ⟨hgood, hspoil⟩ := hstep s l s₁ hs hn
    have next {Q : S → Prop} : (∀ s', A.next s l = some s' → Q s') ↔ Q s₁ :=
      ⟨fun h => h s₁ hn, fun h s' hs' => Option.some.inj (hn.symm.trans hs') ▸ h⟩
    have he₁ : (A.exec s₁ ls).isSome := Option.isSome_iff_exists.mpr ⟨sf, he⟩
    unfold Throughout Along
    rw [next, next]
    by_cases hp : P s l
    · rw [ih (hgood hp) he₁]
      exact ⟨fun h => ⟨hp, h.2⟩, fun h => ⟨hJ s hs, h.2⟩⟩
    · refine iff_of_false (fun h => hspoil hp ?_) fun h => hp h.1
      cases ls with
      | nil => exact h.2
      | cons l' ls => exact h.2.1

/-- A guarded run can be checked by evaluating it. -/
def decideAlong [∀ s l, Decidable (P s l)] : ∀ (s : S) (ls : List L), Decidable (A.Along P s ls)
  | _, [] => isTrue trivial
  | s, l :: ls =>
    match hn : A.next s l with
    | none => decidable_of_iff (P s l) ⟨fun hp => ⟨hp, fun _ hs => nomatch hn.symm.trans hs⟩, And.left⟩
    | some s₁ =>
      haveI := decideAlong s₁ ls
      decidable_of_iff (P s l ∧ A.Along P s₁ ls)
        ⟨fun h => ⟨h.1, fun _ hs => Option.some.inj (hn.symm.trans hs) ▸ h.2⟩, fun h => ⟨h.1, h.2 s₁ hn⟩⟩

instance [∀ s l, Decidable (P s l)] (s : S) (ls : List L) : Decidable (A.Along P s ls) := decideAlong s ls

/-! ## Simulation -/

/-- A map of states under which every guarded step is a run of guarded steps carries reachability over. -/
theorem Reach.map {S' L' : Type} {B : Lts S' L'} {jnit : S' → Prop} {ok' : S' → L' → Prop} {J : S → Prop}
    (f : S → S') (hJ : ∀ s, A.Reach init ok s → J s) (h0 : ∀ s, init s → B.Reach jnit ok' (f s))
    (hstep : ∀ s l s', J s → ok s l → A.next s l = some s' → B.Reach jnit ok' (f s) → B.Reach jnit ok' (f s'))
    {s : S} (h : A.Reach init ok s) : B.Reach jnit ok' (f s) :=
  Reach.invariant_of (I := fun s => B.Reach jnit ok' (f s)) hJ h0
    (fun s l s' hj hb hok hn => hstep s l s' hj hok hn hb) h

end Lts
end Hmon.Lib
