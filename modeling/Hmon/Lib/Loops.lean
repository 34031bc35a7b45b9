import Mathlib.Logic.Basic

/-!
# Loops

* `whileLoop` : a loop with a bound on its iterations; `Ends go step s t` : the loop from `s` ends in `t`;
* `Ends.iff_of_stop`, `Ends.iff_of_go` : one iteration;
* `not_ends` : **a loop that an invariant keeps going does not end**;
* `forLoop` : a counted loop whose body can fail; `forLoop_inv` : **the rule of its invariant**;
  `forLoop_keeps` : the same for a loop that is known to end.
-/

namespace Hmon.Lib

variable {σ : Type} {go : σ → Bool} {step : σ → σ} {s t : σ}

/-- `while(go){step}`, `none` if it is still going after `fuel` iterations. -/
def whileLoop (go : σ → Bool) (step : σ → σ) : (fuel : Nat) → σ → Option σ
  | 0, s => if go s then none else some s
  | fuel + 1, s => if go s then whileLoop go step fuel (step s) else some s

def Ends (go : σ → Bool) (step : σ → σ) (s t : σ) : Prop := ∃ fuel, whileLoop go step fuel s = some t

theorem whileLoop_stop (h : go s = false) (fuel : Nat) : whileLoop go step fuel s = some s := by
  have hgo : ¬ go s = true := by rw [h]; exact Bool.false_ne_true
  cases fuel with
  | zero => exact if_neg hgo
  | succ fuel => exact if_neg hgo

theorem Ends.iff_of_stop (h : go s = false) : Ends go step s t ↔ t = s := by
  constructor
  · rintro ⟨fuel, hf⟩
    rw [whileLoop_stop h] at hf
    exact (Option.some.inj hf).symm
  · rintro rfl
    exact ⟨0, whileLoop_stop h 0⟩

theorem Ends.iff_of_go (h : go s = true) : Ends go step s t ↔ Ends go step (step s) t := by
  constructor
  · rintro ⟨fuel, hf⟩
    cases fuel with
    | zero =>
      rw [whileLoop, if_pos h] at hf
      cases hf
    | succ fuel =>
      rw [whileLoop, if_pos h] at hf
      exact ⟨fuel, hf⟩
  · rintro ⟨fuel, hf⟩
    refine ⟨fuel + 1, ?_⟩
    rw [whileLoop, if_pos h]
    exact hf

theorem not_ends {I : σ → Prop} (hgo : ∀ s, I s → go s = true) (hstep : ∀ s, I s → I (step s)) (h : I s) :
    ¬ Ends go step s t := by
  rintro ⟨fuel, hf⟩
  induction fuel generalizing s with
  | zero =>
    rw [whileLoop, if_pos (hgo s h)] at hf
    cases hf
  | succ fuel ih =>
    rw [whileLoop, if_pos (hgo s h)] at hf
    exact ih (hstep s h) hf

/-! ## Counted loops -/

section For
variable {ε : Type} {f : Nat → σ → Except ε σ} {n : Nat}

/-- `for (i = 0; i < n; i++)` -/
def forLoop (body : Nat → σ → Except ε σ) : Nat → σ → Except ε σ
  | 0, s => .ok s
  | n + 1, s => forLoop body n s >>= body n

/-- What a sequence returns, its two halves return. -/
theorem bind_eq_ok {α β : Type} {x : Except ε α} {g : α → Except ε β} {b : β} :
    x >>= g = .ok b ↔ ∃ a, x = .ok a ∧ g a = .ok b := by
  cases x with
  | error e => exact ⟨fun h => (nomatch h), fun ⟨_, h, _⟩ => nomatch h⟩
  | ok a => exact ⟨fun h => ⟨a, rfl, h⟩, fun ⟨_, h, hg⟩ => Except.ok.inj h ▸ hg⟩

theorem forLoop_inv {I : Nat → σ → Prop} (hstart : I 0 s)
    (hbody : ∀ i < n, ∀ s, I i s → ∃ s', f i s = .ok s' ∧ I (i + 1) s') :
    ∃ s', forLoop f n s = .ok s' ∧ I n s' := by
  induction n with
  | zero => exact ⟨s, rfl, hstart⟩
  | succ n ih =>
    obtain ⟨s₁, h₁, hI₁⟩ := ih fun i hi => hbody i (Nat.lt_succ_of_lt hi)
    obtain ⟨s₂, h₂, hI₂⟩ := hbody n (Nat.lt_succ_self n) s₁ hI₁
    refine ⟨s₂, ?_, hI₂⟩
    rw [forLoop, h₁]
    exact h₂

/-- The same for a loop that is known to end. -/
theorem forLoop_keeps {I : Nat → σ → Prop} (hstart : I 0 s)
    (hbody : ∀ i < n, ∀ s s', I i s → f i s = .ok s' → I (i + 1) s') (h : forLoop f n s = .ok t) : I n t := by
  induction n generalizing t with
  | zero =>
    cases h
    exact hstart
  | succ n ih =>
    obtain ⟨s₁, hn, hlast⟩ := bind_eq_ok.mp h
    exact hbody n (Nat.lt_succ_self n) s₁ t (ih (fun i hi => hbody i (Nat.lt_succ_of_lt hi)) hn) hlast

/-- A loop fails whose first round does. -/
theorem forLoop_error {e : ε} (h : f 0 s = .error e) : forLoop f (n + 1) s = .error e := by
  induction n with
  | zero => exact h
  | succ n ih =>
    rw [forLoop, ih]
    rfl

end For

end Hmon.Lib
