import Mathlib.Data.List.Basic

/-!
# Programs over arrays and their accesses

* `Prog A V α` : a computation over the arrays `A` of values `V` that logs each access;
* `load`, `store`, `forRange` : its operations; an access out of an array is logged, loads 0 and stores nothing;
* `Logs p as` : from every state, `p` makes the accesses `as` and keeps the lengths; one rule for each operation;
* `forRange_inv` : the invariant rule of a loop; `forRange_each` : that of a loop whose rounds have nothing in common.
-/

namespace Hmon.Lib

/-- An access to the cell `index` of `array`. -/
structure Access (A : Type) where
  array : A
  index : Nat
  isWrite : Bool
  deriving DecidableEq, Repr

/-- The contents of the arrays and the accesses so far. -/
structure Arrays (A V : Type) where
  cells : A → List V
  log : List (Access A)

abbrev Prog (A V : Type) := StateM (Arrays A V)

variable {A V α β : Type}

/-- The loop `for (i = 0; i < n; i++)` with the accumulator `x`. -/
def forRange : Nat → α → (Nat → α → Prog A V α) → Prog A V α
  | 0, x, _ => pure x
  | n + 1, x, body => forRange n x body >>= body n

def load [Zero V] (a : A) (i : Nat) : Prog A V V := fun s =>
  ((s.cells a).getD i 0, { s with log := s.log ++ [⟨a, i, false⟩] })

def store [DecidableEq A] (a : A) (i : Nat) (v : V) : Prog A V Unit := fun s =>
  ((), { cells := Function.update s.cells a ((s.cells a).set i v), log := s.log ++ [⟨a, i, true⟩] })

/-- Whatever the arrays contain, `p` makes exactly the accesses `as`, in this order, and keeps the lengths. -/
structure Logs (p : Prog A V α) (as : List (Access A)) : Prop where
  log : ∀ s, (p s).2.log = s.log ++ as
  length : ∀ s a, ((p s).2.cells a).length = (s.cells a).length

/-! ## The accesses of each operation -/

theorem Logs.pure (x : α) : Logs (pure x : Prog A V α) [] :=
  ⟨fun s => (List.append_nil s.log).symm, fun _ _ => rfl⟩

theorem Logs.bind {p : Prog A V α} {f : α → Prog A V β} {as bs : List (Access A)} (hp : Logs p as)
    (hf : ∀ x, Logs (f x) bs) : Logs (p >>= f) (as ++ bs) where
  log s := by
    show (f (p s).1 (p s).2).2.log = _
    rw [(hf _).log, hp.log, List.append_assoc]
  length s a := ((hf (p s).1).length (p s).2 a).trans (hp.length s a)

theorem Logs.load [Zero V] (a : A) (i : Nat) : Logs (load a i : Prog A V V) [⟨a, i, false⟩] :=
  ⟨fun _ => rfl, fun _ _ => rfl⟩

theorem Logs.store [DecidableEq A] (a : A) (i : Nat) (v : V) : Logs (store a i v) [⟨a, i, true⟩] where
  log _ := rfl
  length s b := by
    show (Function.update s.cells a ((s.cells a).set i v) b).length = _
    by_cases h : b = a
    · rw [h, Function.update_self, List.length_set]
    · rw [Function.update_of_ne h]

theorem Logs.forRange {n : Nat} {x : α} {body : Nat → α → Prog A V α} {as : Nat → List (Access A)}
    (h : ∀ i y, Logs (body i y) (as i)) : Logs (forRange n x body) ((List.range n).flatMap as) := by
  induction n with
  | zero => exact Logs.pure x
  | succ n ih =>
    rw [List.range_succ, List.flatMap_append, List.flatMap_singleton]
    exact ih.bind (h n)

/-! ## The values that a store leaves -/

section Store
variable [DecidableEq A] {a b : A} {i j : Nat} {v : V} {s : Arrays A V}

theorem store_cells_ne (h : b ≠ a) : (store a i v s).2.cells b = s.cells b := Function.update_of_ne h _ _

theorem store_cells_self : (store a i v s).2.cells a = (s.cells a).set i v := Function.update_self ..

theorem store_get_self (h : i < (s.cells a).length) : ((store a i v s).2.cells a)[i]? = some v := by
  rw [store_cells_self, List.getElem?_set_self h]

theorem store_get_ne (h : i ≠ j) : ((store a i v s).2.cells a)[j]? = (s.cells a)[j]? := by
  rw [store_cells_self, List.getElem?_set_ne h]

theorem store_length (a b : A) : ((store a i v s).2.cells b).length = (s.cells b).length :=
  (Logs.store a i v).length s b

end Store

/-! ## The values that a loop leaves -/

/-- A property that every round preserves holds after the loop. -/
theorem forRange_inv {I : Nat → Arrays A V → Prop} {n : Nat} {x : α} {body : Nat → α → Prog A V α} {s : Arrays A V}
    (h₀ : I 0 s) (hstep : ∀ i < n, ∀ y t, I i t → I (i + 1) (body i y t).2) : I n (forRange n x body s).2 := by
  induction n with
  | zero => exact h₀
  | succ n ih =>
    have hn := ih fun i hi => hstep i (Nat.lt_succ_of_lt hi)
    exact hstep n (Nat.lt_succ_self n) _ _ hn

/-- Each round turns its own property `P i` into `Q i` and keeps those of the other rounds. -/
theorem forRange_each {P Q : Nat → Arrays A V → Prop} {n : Nat} {x : α} {body : Nat → α → Prog A V α}
    {s : Arrays A V} (h₀ : ∀ j < n, P j s) (hbody : ∀ i < n, ∀ y t, P i t → Q i (body i y t).2)
    (hbefore : ∀ i < n, ∀ j < i, ∀ y t, P i t → Q j t → Q j (body i y t).2)
    (hafter : ∀ i < n, ∀ j < n, i < j → ∀ y t, P i t → P j t → P j (body i y t).2) :
    ∀ j < n, Q j (forRange n x body s).2 := by
  have hinv : (∀ j < n, Q j (forRange n x body s).2) ∧ ∀ j < n, n ≤ j → P j (forRange n x body s).2 := by
    refine forRange_inv (I := fun i t => (∀ j < i, Q j t) ∧ ∀ j < n, i ≤ j → P j t)
      ⟨fun j hj => absurd hj (Nat.not_lt_zero j), fun j hj _ => h₀ j hj⟩ fun i hi y t ht => ?_
    have hP := ht.2 i hi (Nat.le_refl i)
    refine ⟨fun j hj => ?_, fun j hj hij => hafter i hi j hj hij y t hP (ht.2 j hj (Nat.le_of_succ_le hij))⟩
    rcases Nat.lt_succ_iff_lt_or_eq.mp hj with hlt | rfl
    · exact hbefore i hi j hlt y t hP (ht.1 j hlt)
    · exact hbody j hi y t hP
  exact hinv.1

/-- The round `i` of a loop that replaces the front of `xs` by that of `ys`. -/
theorem set_front {xs ys : List V} {i : Nat} {v : V} (hy : ys[i]? = some v) (hx : i < xs.length) :
    (ys.take i ++ xs.drop i).set i v = ys.take (i + 1) ++ xs.drop (i + 1) := by
  have hlen : (ys.take i).length = i := by
    obtain ⟨hi, -⟩ := List.getElem?_eq_some_iff.mp hy
    rw [List.length_take]
    omega
  rw [List.set_append_right _ _ (Nat.le_of_eq hlen), hlen, Nat.sub_self, List.drop_eq_getElem_cons hx,
    List.set_cons_zero, List.take_add_one, hy, List.append_assoc]
  rfl

/-- `memcpy` of `n` cells of `src` from `base` on to the front of `dst`. -/
def memcpy [Zero V] [DecidableEq A] (dst src : A) (base n : Nat) : Prog A V Unit :=
  forRange n () fun i _ => do
    let v ← load src (base + i)
    store dst i v

theorem Logs.memcpy [Zero V] [DecidableEq A] (dst src : A) (base n : Nat) :
    Logs (memcpy dst src base n : Prog A V Unit)
      ((List.range n).flatMap fun i => [⟨src, base + i, false⟩, ⟨dst, i, true⟩]) :=
  Logs.forRange fun i _ => (Logs.load src (base + i)).bind fun v => Logs.store dst i v

/-- Inside both arrays, `memcpy` replaces the front of the destination. -/
theorem memcpy_cells [Zero V] [DecidableEq A] {dst src : A} {base n : Nat} {s : Arrays A V} (hne : dst ≠ src)
    (hsrc : base + n ≤ (s.cells src).length) (hdst : n ≤ (s.cells dst).length) :
    (memcpy dst src base n s).2.cells dst = ((s.cells src).drop base).take n ++ (s.cells dst).drop n := by
  have hinv : (memcpy dst src base n s).2.cells src = s.cells src ∧
      (memcpy dst src base n s).2.cells dst = ((s.cells src).drop base).take n ++ (s.cells dst).drop n := by
    refine forRange_inv (I := fun i t => t.cells src = s.cells src ∧
      t.cells dst = ((s.cells src).drop base).take i ++ (s.cells dst).drop i) ⟨rfl, by simp⟩ ?_
    intro i hi _ t ht
    have hv : ((s.cells src).drop base)[i]? = some ((s.cells src).getD (base + i) 0) := by
      rw [List.getElem?_drop, List.getD_eq_getElem?_getD, List.getElem?_eq_getElem (by omega), Option.getD_some]
    constructor
    · show Function.update t.cells dst _ src = _
      rw [Function.update_of_ne hne.symm, ht.1]
    · show Function.update t.cells dst ((t.cells dst).set i ((t.cells src).getD (base + i) 0)) dst = _
      rw [Function.update_self, ht.1, ht.2, set_front hv (by omega)]
  exact hinv.2

end Hmon.Lib
