import Mathlib.Data.List.Basic

/-!
# Expressions with the usual precedence

* `Arith V` : partial operations on values; `Symbol V` : operands, operators and parentheses;
* `Means` : the grammar of sums of products of factors, with the values;
* `eval` : an evaluator that reads one symbol at a time; `Means.eval_eq` : it computes the value of the grammar;
* `Lifts.evaluate` : related operations give related values; `Arith.prod`, `Arith.total` : two evaluations at once, and
  evaluations that go on where an operation is not defined.
-/

namespace Hmon.Lib.Precedence

inductive Op
  | add
  | sub
  | mul
  | div
  deriving DecidableEq

/-- `*` and `/`. -/
def Op.binds : Op → Bool
  | add => false
  | sub => false
  | mul => true
  | div => true

/-- Partial operations. -/
structure Arith (V : Type) where
  neg : V → Option V
  op : Op → V → V → Option V

inductive Symbol (V : Type)
  | operand (v : V)
  | op (o : Op)
  | left
  | right

/-! ## The grammar -/

inductive Level
  | factor
  | term
  | expr

section Grammar
variable {V : Type} (A : Arith V)

/-- An expression is a sum of terms, a term a product of factors, both grouped from the left; a factor is an operand,
an expression in parentheses, or a factor behind a minus sign. -/
inductive Means : Level → List (Symbol V) → V → Prop
  | operand (v : V) : Means .factor [.operand v] v
  | paren {ss : List (Symbol V)} {v : V} : Means .expr ss v → Means .factor (.left :: ss ++ [.right]) v
  | neg {ss : List (Symbol V)} {v w : V} : Means .factor ss v → A.neg v = some w → Means .factor (.op .sub :: ss) w
  | ofFactor {ss : List (Symbol V)} {v : V} : Means .factor ss v → Means .term ss v
  | term {ss ts : List (Symbol V)} {x y z : V} {o : Op} : Means .term ss x → Means .factor ts y → o.binds = true →
      A.op o x y = some z → Means .term (ss ++ .op o :: ts) z
  | ofTerm {ss : List (Symbol V)} {v : V} : Means .term ss v → Means .expr ss v
  | expr {ss ts : List (Symbol V)} {x y z : V} {o : Op} : Means .expr ss x → Means .term ts y → o.binds = false →
      A.op o x y = some z → Means .expr (ss ++ .op o :: ts) z

end Grammar

/-! ## The evaluator -/

/-- Before an operand: the sum and the product to its left, each with the operator behind it, and the minus signs. -/
structure Frame (V : Type) where
  sum : Option (V × Op)
  prod : Option (V × Op)
  negs : Nat

def Frame.empty {V : Type} : Frame V := ⟨none, none, 0⟩

inductive State (V : Type)
  | operand (f : Frame V)
  /-- Behind an operand: the sum to the left of the current term, and the term. -/
  | operator (sum : Option (V × Op)) (t : V)

namespace Arith
variable {V : Type} (A : Arith V)

def negate : Nat → V → Option V
  | 0, v => some v
  | n + 1, v => (A.neg v).bind (negate n)

def apply : Option (V × Op) → V → Option V
  | none, v => some v
  | some (x, o), v => A.op o x v

/-- The term up to an operand. -/
def factor (f : Frame V) (v : V) : Option V := (A.negate f.negs v).bind (A.apply f.prod)

end Arith

section Eval
variable {V : Type} (A : Arith V)

/-- `fs` are the frames outside the open parentheses. -/
def eval : List (Frame V) → State V → List (Symbol V) → Option V
  | fs, st, [] =>
    match fs, st with
    | [], .operator sum t => A.apply sum t
    | _, _ => none
  | fs, .operand f, s :: ss =>
    match s with
    | .operand v => (A.factor f v).bind fun t => eval fs (.operator f.sum t) ss
    | .op .sub => eval fs (.operand { f with negs := f.negs + 1 }) ss
    | .op .add => eval fs (.operand f) ss
    | .op _ => none
    | .left => eval (f :: fs) (.operand .empty) ss
    | .right => none
  | fs, .operator sum t, s :: ss =>
    match s with
    | .op o =>
      if o.binds then eval fs (.operand ⟨sum, some (t, o), 0⟩) ss
      else (A.apply sum t).bind fun s => eval fs (.operand ⟨some (s, o), none, 0⟩) ss
    | .right =>
      match fs with
      | f :: fs => (A.apply sum t).bind fun s => (A.factor f s).bind fun t' => eval fs (.operator f.sum t') ss
      | [] => none
    | .operand _ => none
    | .left => none

/-- The value of an expression. -/
def evaluate (ss : List (Symbol V)) : Option V := eval A [] (.operand .empty) ss

end Eval

/-- What the evaluator does with the symbols of each level. -/
def Reads {V : Type} (A : Arith V) : Level → List (Symbol V) → V → Prop
  | .factor, ss, v => ∀ fs f rest,
    eval A fs (.operand f) (ss ++ rest) = (A.factor f v).bind fun t => eval A fs (.operator f.sum t) rest
  | .term, ss, v => ∀ fs sum rest,
    eval A fs (.operand ⟨sum, none, 0⟩) (ss ++ rest) = eval A fs (.operator sum v) rest
  | .expr, ss, v => ∃ sum t, A.apply sum t = some v ∧
    ∀ fs rest, eval A fs (.operand .empty) (ss ++ rest) = eval A fs (.operator sum t) rest

section Means
variable {V : Type} {A : Arith V} {ss : List (Symbol V)} {v : V}

theorem Means.reads {l : Level} (h : Means A l ss v) : Reads A l ss v := by
  induction h with
  | operand v => exact fun fs f rest => rfl
  | paren _ ih =>
    obtain ⟨sum, t, hv, hread⟩ := ih
    intro fs f rest
    simp only [List.cons_append, List.append_assoc, eval, hread, hv]
    rfl
  | @neg ss v w _ hneg ih =>
    intro fs f rest
    have hfactor : A.factor { f with negs := f.negs + 1 } v = A.factor f w := by
      simp only [Arith.factor, Arith.negate, hneg, Option.bind_some]
    simp only [List.cons_append, eval, ih fs, hfactor]
  | ofFactor _ ih =>
    intro fs sum rest
    rw [ih]
    rfl
  | @term ss ts x y z o _ _ ho hop ih₁ ih₂ =>
    intro fs sum rest
    have hfactor : A.factor ⟨sum, some (x, o), 0⟩ y = some z := hop
    rw [List.append_assoc, ih₁]
    simp only [List.cons_append, eval, ho, if_true]
    rw [ih₂, hfactor]
    rfl
  | @ofTerm ss v _ ih => exact ⟨none, v, rfl, fun fs rest => ih fs none rest⟩
  | @expr ss ts x y z o _ _ ho hop ih₁ ih₂ =>
    obtain ⟨sum, t, hx, hread⟩ := ih₁
    refine ⟨some (x, o), y, hop, fun fs rest => ?_⟩
    rw [List.append_assoc, hread]
    simp only [List.cons_append, eval, ho, hx, Bool.false_eq_true, if_false, Option.bind_some]
    exact ih₂ fs _ rest

/-- **The evaluator computes the value of the grammar.** -/
theorem Means.evaluate_eq (h : Means A .expr ss v) : evaluate A ss = some v := by
  obtain ⟨sum, t, hv, hread⟩ := h.reads
  have := hread [] []
  rw [List.append_nil] at this
  rw [evaluate, this]
  exact hv

end Means

/-! ## Related values -/

section Lift
variable {V W : Type} {A : Arith V} {B : Arith W} {R : V → W → Prop}

/-- Where an operation of `A` is defined, the one of `B` is, with a related result. -/
structure Lifts (A : Arith V) (B : Arith W) (R : V → W → Prop) : Prop where
  neg : ∀ x x' y, R x x' → A.neg x = some y → ∃ y', B.neg x' = some y' ∧ R y y'
  op : ∀ o x x' y y' z, R x x' → R y y' → A.op o x y = some z → ∃ z', B.op o x' y' = some z' ∧ R z z'

inductive SymbolRel (R : V → W → Prop) : Symbol V → Symbol W → Prop
  | operand {v : V} {w : W} : R v w → SymbolRel R (.operand v) (.operand w)
  | op (o : Op) : SymbolRel R (.op o) (.op o)
  | left : SymbolRel R .left .left
  | right : SymbolRel R .right .right

inductive PendingRel (R : V → W → Prop) : Option (V × Op) → Option (W × Op) → Prop
  | none : PendingRel R none none
  | some {v : V} {w : W} (o : Op) : R v w → PendingRel R (some (v, o)) (some (w, o))

structure FrameRel (R : V → W → Prop) (f : Frame V) (g : Frame W) : Prop where
  sum : PendingRel R f.sum g.sum
  prod : PendingRel R f.prod g.prod
  negs : f.negs = g.negs

inductive StateRel (R : V → W → Prop) : State V → State W → Prop
  | operand {f : Frame V} {g : Frame W} : FrameRel R f g → StateRel R (.operand f) (.operand g)
  | operator {p : Option (V × Op)} {q : Option (W × Op)} {v : V} {w : W} : PendingRel R p q → R v w →
      StateRel R (.operator p v) (.operator q w)

theorem FrameRel.empty : FrameRel R .empty .empty := ⟨.none, .none, rfl⟩

theorem Lifts.negate (h : Lifts A B R) {n : Nat} {v y : V} {w : W} (hr : R v w) (hy : A.negate n v = some y) :
    ∃ y', B.negate n w = some y' ∧ R y y' := by
  induction n generalizing v w with
  | zero =>
    cases hy
    exact ⟨w, rfl, hr⟩
  | succ n ih =>
    obtain ⟨x, hx, hy⟩ := Option.bind_eq_some_iff.mp hy
    obtain ⟨x', hx', hr'⟩ := h.neg v w x hr hx
    obtain ⟨y', hy', hr''⟩ := ih hr' hy
    exact ⟨y', by simp only [Arith.negate, hx', Option.bind_some, hy'], hr''⟩

theorem Lifts.apply (h : Lifts A B R) {p : Option (V × Op)} {q : Option (W × Op)} {v y : V} {w : W}
    (hp : PendingRel R p q) (hr : R v w) (hy : A.apply p v = some y) : ∃ y', B.apply q w = some y' ∧ R y y' := by
  cases hp with
  | none =>
    cases hy
    exact ⟨w, rfl, hr⟩
  | some o hx => exact h.op o _ _ _ _ y hx hr hy

theorem Lifts.factor (h : Lifts A B R) {f : Frame V} {g : Frame W} {v y : V} {w : W} (hf : FrameRel R f g)
    (hr : R v w) (hy : A.factor f v = some y) : ∃ y', B.factor g w = some y' ∧ R y y' := by
  obtain ⟨x, hx, hy⟩ := Option.bind_eq_some_iff.mp hy
  rw [hf.negs] at hx
  obtain ⟨x', hx', hr'⟩ := h.negate hr hx
  obtain ⟨y', hy', hr''⟩ := h.apply hf.prod hr' hy
  exact ⟨y', by simp only [Arith.factor, hx', Option.bind_some, hy'], hr''⟩

/-- **Related symbols have related values.** -/
theorem Lifts.eval (h : Lifts A B R) {ss : List (Symbol V)} {ts : List (Symbol W)}
    (hs : List.Forall₂ (SymbolRel R) ss ts)
    {fs : List (Frame V)} {gs : List (Frame W)} (hf : List.Forall₂ (FrameRel R) fs gs) {s : State V} {t : State W}
    (hst : StateRel R s t) {v : V} (hv : eval A fs s ss = some v) : ∃ w, eval B gs t ts = some w ∧ R v w := by
  induction hs generalizing fs gs s t with
  | nil =>
    cases hf with
    | nil =>
      cases hst with
      | operand _ => cases hv
      | operator hp hr => exact h.apply hp hr hv
    | cons _ _ => cases hst <;> cases hv
  | @cons a b ss ts hab _ ih =>
    cases hst with
    | @operand f g hfg =>
      cases hab with
      | operand hr =>
        obtain ⟨x, hx, hv⟩ := Option.bind_eq_some_iff.mp (show (A.factor f _).bind _ = some v from hv)
        obtain ⟨x', hx', hr'⟩ := h.factor hfg hr hx
        obtain ⟨w, hw, hvw⟩ := ih hf (.operator hfg.sum hr') hv
        exact ⟨w, by simp only [Precedence.eval, hx', Option.bind_some, hw], hvw⟩
      | op o =>
        cases o with
        | add => exact ih hf (.operand hfg) hv
        | sub =>
          have hnegs : FrameRel R { f with negs := f.negs + 1 } { g with negs := g.negs + 1 } :=
            ⟨hfg.sum, hfg.prod, congrArg (· + 1) hfg.negs⟩
          exact ih hf (.operand hnegs) hv
        | mul => exact absurd (show none = some v from hv) (by simp)
        | div => exact absurd (show none = some v from hv) (by simp)
      | left => exact ih (.cons hfg hf) (.operand .empty) hv
      | right => exact absurd (show none = some v from hv) (by simp)
    | @operator p q x x' hp hr =>
      cases hab with
      | operand _ => exact absurd (show none = some v from hv) (by simp)
      | left => exact absurd (show none = some v from hv) (by simp)
      | op o =>
        simp only [Precedence.eval] at hv ⊢
        split_ifs at hv ⊢ with ho
        · exact ih hf (.operand ⟨hp, .some o hr, rfl⟩) hv
        · obtain ⟨y, hy, hv⟩ := Option.bind_eq_some_iff.mp hv
          obtain ⟨y', hy', hr'⟩ := h.apply hp hr hy
          have hframe : FrameRel R ⟨some (y, o), none, 0⟩ ⟨some (y', o), none, 0⟩ := ⟨.some o hr', .none, rfl⟩
          obtain ⟨w, hw, hvw⟩ := ih hf (.operand hframe) hv
          exact ⟨w, by rw [hy', Option.bind_some, hw], hvw⟩
      | right =>
        cases hf with
        | nil => exact absurd (show none = some v from hv) (by simp)
        | @cons f g fs gs hfg hf =>
          simp only [Precedence.eval] at hv ⊢
          obtain ⟨y, hy, hv⟩ := Option.bind_eq_some_iff.mp hv
          obtain ⟨y', hy', hr'⟩ := h.apply hp hr hy
          obtain ⟨z, hz, hv⟩ := Option.bind_eq_some_iff.mp hv
          obtain ⟨z', hz', hr''⟩ := h.factor hfg hr' hz
          obtain ⟨w, hw, hvw⟩ := ih hf (.operator hfg.sum hr'') hv
          exact ⟨w, by rw [hy', Option.bind_some, hz', Option.bind_some, hw], hvw⟩

theorem Lifts.evaluate (h : Lifts A B R) {ss : List (Symbol V)} {ts : List (Symbol W)}
    (hs : List.Forall₂ (SymbolRel R) ss ts) {v : V} (hv : evaluate A ss = some v) :
    ∃ w, Precedence.evaluate B ts = some w ∧ R v w :=
  h.eval hs .nil (.operand .empty) hv

end Lift

/-! ## Two evaluations at once -/

section Pair
variable {V W : Type} (A : Arith V) (B : Arith W)

def Arith.prod : Arith (V × W) where
  neg x := (A.neg x.1).bind fun a => (B.neg x.2).map fun b => (a, b)
  op o x y := (A.op o x.1 y.1).bind fun a => (B.op o x.2 y.2).map fun b => (a, b)

/-- The same operations, with `none` as the result where they are not defined. -/
def Arith.total : Arith (Option V) where
  neg x := some (x.bind A.neg)
  op o x y := some (x.bind fun a => y.bind (A.op o a))

theorem Lifts.fst : Lifts (A.prod B) A fun p v => p.1 = v where
  neg x x' y h hy := by
    subst h
    obtain ⟨a, ha, hy⟩ := Option.bind_eq_some_iff.mp hy
    obtain ⟨b, -, rfl⟩ := Option.map_eq_some_iff.mp hy
    exact ⟨a, ha, rfl⟩
  op o x x' y y' z h h' hz := by
    subst h h'
    obtain ⟨a, ha, hz⟩ := Option.bind_eq_some_iff.mp hz
    obtain ⟨b, -, rfl⟩ := Option.map_eq_some_iff.mp hz
    exact ⟨a, ha, rfl⟩

theorem Lifts.snd : Lifts (A.prod B) B fun p w => p.2 = w where
  neg x x' y h hy := by
    subst h
    obtain ⟨a, -, hy⟩ := Option.bind_eq_some_iff.mp hy
    obtain ⟨b, hb, rfl⟩ := Option.map_eq_some_iff.mp hy
    exact ⟨b, hb, rfl⟩
  op o x x' y y' z h h' hz := by
    subst h h'
    obtain ⟨a, -, hz⟩ := Option.bind_eq_some_iff.mp hz
    obtain ⟨b, hb, rfl⟩ := Option.map_eq_some_iff.mp hz
    exact ⟨b, hb, rfl⟩

theorem Lifts.total : Lifts A A.total fun v x => x = some v where
  neg x x' y h hy := by
    subst h
    exact ⟨some y, congrArg some hy, rfl⟩
  op o x x' y y' z h h' hz := by
    subst h h'
    exact ⟨some z, congrArg some hz, rfl⟩

end Pair

end Hmon.Lib.Precedence
