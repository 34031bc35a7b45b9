import Hmon.Config.CText
import Mathlib.Data.List.TakeWhile

/-!
# The meaning of a reduction

* `lexemes` : the tokens of a text with their lexemes; `expressions` : the right sides of an assignment list;
* `exprSymbols` : an expression as operands and operators; `HasValue` : its value with the usual precedence;
* `PreservesMeaning` : what the generated function is for;
* `Faithful` : the condition on the expressions: variables and literals that C reads as the scanner does, no minus sign
  before a negative literal, and integer quotients that are exact;
* `value_of_exact` : **with C's types and operators, an exact expression has its value**.
-/

namespace Hmon.Config
open Lib Lib.Regex Lib.Precedence

/-! ## Lexemes -/

abbrev Lexeme := Token × Text

def lexemes (s : Text) : List Lexeme := Lexer.scan (rules.map Lexer.keep) s

theorem lexemes_tokens (s : Text) : (lexemes s).map Prod.fst = scan s := Lexer.scan_keep rules s

/-- The lists between the commas, up to the semicolon. -/
def cut : List Lexeme → List (List Lexeme)
  | [] => [[]]
  | l :: ls =>
    if l.1 = .char ';' then [[]]
    else if l.1 = .char ',' then [] :: cut ls
    else
      match cut ls with
      | [] => []
      | e :: es => (l :: e) :: es

/-- What stands behind the name and the equals sign of each assignment. -/
def expressions (s : Text) : List (List Lexeme) := (cut (lexemes s)).map (List.drop 2)

/-! ## Values -/

/-- The literal behind a sign. -/
def unsigned : Text → Text
  | '-' :: s => s
  | s => s

def intValue : Text → Int
  | '-' :: ds => -(digitsValue ds : Int)
  | ds => (digitsValue ds : Int)

section Symbols
variable {V : Type}

def charSymbol : Char → Option (Symbol V)
  | '(' => some .left
  | ')' => some .right
  | '+' => some (.op .add)
  | '-' => some (.op .sub)
  | '*' => some (.op .mul)
  | '/' => some (.op .div)
  | _ => none

def literalSymbols (r : Reading V) (u : Text) : Option (List (Symbol V)) :=
  (r.constant (unsigned u)).map fun v => if u.head? = some '-' then [.op .sub, .operand v] else [.operand v]

def lexemeSymbols (r : Reading V) : Lexeme → Option (List (Symbol V))
  | (.var _, u) => some [.operand (r.event (intValue (u.drop 1)))]
  | (.integer _, u) => literalSymbols r u
  | (.real _, u) => literalSymbols r u
  | (.char c, _) => (charSymbol c).map fun s => [s]
  | _ => none

def exprSymbols (r : Reading V) : List Lexeme → Option (List (Symbol V))
  | [] => some []
  | l :: ls => (lexemeSymbols r l).bind fun ss => (exprSymbols r ls).map (ss ++ ·)

end Symbols

/-- `v` is the rational value of the expression `e`, with `row k` for `$k`. -/
def HasValue (row : Int → ℚ) (e : List Lexeme) (v : ℚ) : Prop :=
  ∃ ss, exprSymbols ⟨decimalConstant, row⟩ e = some ss ∧ Means ratArith .expr ss v

/-- The file for `code` is well formed, and a call stores in each sample the value of its expression. -/
def PreservesMeaning (declared : Text → Bool) (id code : Text) (es : List (List Lexeme)) : Prop :=
  ∀ (row : Int → ℚ) (samples : Int → Option ℚ),
    ∃ samples', run declared (functionSource id code) row samples = some samples' ∧
      ∀ (i : Nat) (e : List Lexeme) (v : ℚ), es[i]? = some e → HasValue row e v → samples' i = some v

/-! ## The condition -/

/-- C reads the digits as the scanner does. -/
def readsDecimal (ds : Text) : Bool := decide (integerValue ds = some (digitsValue ds))

/-- A variable with a text that is not cut. -/
def variableOk : Lexeme → Bool
  | (.var _, u) => decide (u.length ≤ 8) && readsDecimal (unsigned (u.drop 1))
  | _ => true

/-- No minus sign stands before a negative literal. -/
def apart : List Lexeme → Bool
  | k :: l :: ls => !decide (k.1 = .char '-' ∧ l.2.head? = some '-') && apart (l :: ls)
  | _ => true

def units : DoubleOps Unit := ⟨fun _ => (), fun _ => (), fun _ _ _ => ()⟩

/-- The operators on integers, where the quotient is exact. -/
def exactOp : Precedence.Op → Int → Int → Option Int
  | .div, x, y => if y ≠ 0 ∧ y * x.tdiv y = x then some (x.tdiv y) else none
  | o, x, y => integerOp o x y

/-- The types, and the values of the integers. -/
def exactArith : Arith (CNum Unit) := numArith units exactOp

def exactReading : Reading (CNum Unit) where
  constant u :=
    if u.all digit then if readsDecimal u then integerConstant u else none
    else (decimalConstant u).map fun _ => .double ()
  event _ := .double ()

/-- The literals are decimal, the integers fit their types, and where both operands are integers the quotient is one. -/
def exact (e : List Lexeme) : Bool := ((exprSymbols exactReading e).bind (evaluate exactArith)).isSome

/-- When the generated function means what the assignment list says. -/
structure Faithful (declared : Text → Bool) (id : Text) (es : List (List Lexeme)) : Prop where
  identifier : id.head?.any isLetter = true ∧ id.all identChar = true
  notKeyword : id ∉ keywords.map String.toList
  undeclared : declared id = false
  count : es.length ≤ 2147483648
  vars : ∀ e ∈ es, ∀ l ∈ e, variableOk l = true
  apart : ∀ e ∈ es, apart e = true
  exact : ∀ e ∈ es, exact e = true

/-! ## Values and types of an exact expression -/

namespace CNum
variable {D : Type}

/-- The type, and the value of an integer. -/
def kind : CNum D → CNum Unit
  | int n => .int n
  | long n => .long n
  | double _ => .double ()

end CNum

section Refines
variable {V W : Type} {r : Reading V} {r' : Reading W} {R : V → W → Prop} {e : List Lexeme} {ss : List (Symbol V)}

/-- The constants of `r` are constants of `r'`, and the elements of `events` are related. -/
structure Reading.Refines (r : Reading V) (r' : Reading W) (R : V → W → Prop) : Prop where
  constant : ∀ u v, r.constant u = some v → ∃ w, r'.constant u = some w ∧ R v w
  event : ∀ k, R (r.event k) (r'.event k)

theorem Reading.Refines.literal (h : r.Refines r' R) {u : Text} (hs : literalSymbols r u = some ss) :
    ∃ ts, literalSymbols r' u = some ts ∧ List.Forall₂ (SymbolRel R) ss ts := by
  obtain ⟨v, hv, rfl⟩ := Option.map_eq_some_iff.mp hs
  obtain ⟨w, hw, hr⟩ := h.constant _ v hv
  refine ⟨_, Option.map_eq_some_iff.mpr ⟨w, hw, rfl⟩, ?_⟩
  split_ifs
  · exact .cons (.op .sub) (.cons (.operand hr) .nil)
  · exact .cons (.operand hr) .nil

theorem charSymbol_rel {c : Char} {s : Symbol V} (h : charSymbol c = some s) :
    ∃ t : Symbol W, charSymbol c = some t ∧ SymbolRel R s t := by
  unfold charSymbol at h ⊢
  split at h <;> cases h
  · exact ⟨_, rfl, .left⟩
  · exact ⟨_, rfl, .right⟩
  · exact ⟨_, rfl, .op .add⟩
  · exact ⟨_, rfl, .op .sub⟩
  · exact ⟨_, rfl, .op .mul⟩
  · exact ⟨_, rfl, .op .div⟩

theorem Reading.Refines.lexeme (h : r.Refines r' R) {l : Lexeme} (hs : lexemeSymbols r l = some ss) :
    ∃ ts, lexemeSymbols r' l = some ts ∧ List.Forall₂ (SymbolRel R) ss ts := by
  obtain ⟨t, u⟩ := l
  cases t with
  | var x =>
    cases hs
    exact ⟨_, rfl, .cons (.operand (h.event _)) .nil⟩
  | integer x => exact h.literal hs
  | real x => exact h.literal hs
  | char c =>
    obtain ⟨s, hc, rfl⟩ := Option.map_eq_some_iff.mp hs
    obtain ⟨t, ht, hr⟩ := charSymbol_rel (R := R) hc
    exact ⟨[t], Option.map_eq_some_iff.mpr ⟨t, ht, rfl⟩, .cons hr .nil⟩
  | _ => cases hs

/-- The symbols of an expression, read in two ways. -/
theorem Reading.Refines.symbols (h : r.Refines r' R) (hs : exprSymbols r e = some ss) :
    ∃ ts, exprSymbols r' e = some ts ∧ List.Forall₂ (SymbolRel R) ss ts := by
  induction e generalizing ss with
  | nil =>
    cases hs
    exact ⟨[], rfl, .nil⟩
  | cons l e ih =>
    obtain ⟨s₁, h₁, hs⟩ := Option.bind_eq_some_iff.mp hs
    obtain ⟨s₂, h₂, rfl⟩ := Option.map_eq_some_iff.mp hs
    obtain ⟨t₁, ht₁, hr₁⟩ := h.lexeme h₁
    obtain ⟨t₂, ht₂, hr₂⟩ := ih h₂
    refine ⟨t₁ ++ t₂, ?_, List.rel_append hr₁ hr₂⟩
    simp only [exprSymbols, ht₁, ht₂, Option.bind_some, Option.map_some]

end Refines

/-- A number of C has the type and the value of an integer that `k` says, and the value of the rational, if that has
one. -/
def Agrees (k : CNum Unit) (p : CNum (Option ℚ) × Option ℚ) : Prop :=
  p.1.kind = k ∧ ∀ q, p.2 = some q → p.1.toDouble rationals = some q

section Agrees
variable {o : Precedence.Op} {a b z : Int} {k : CNum Unit} {x y : Option ℚ}

theorem integerOp_of_exactOp (h : exactOp o a b = some z) : integerOp o a b = some z := by
  cases o with
  | div =>
    simp only [exactOp, Option.ite_none_right_eq_some] at h
    obtain ⟨⟨hb, -⟩, hz⟩ := h
    simp only [integerOp, if_neg hb]
    exact hz
  | _ => exact h

/-- The result is the rational one. -/
theorem exactOp_rat (h : exactOp o a b = some z) {q : ℚ} (hq : ratArith.op o a b = some q) : q = z := by
  cases o with
  | add =>
    cases h
    cases hq
    exact (Int.cast_add a b).symm
  | sub =>
    cases h
    cases hq
    exact (Int.cast_sub a b).symm
  | mul =>
    cases h
    cases hq
    exact (Int.cast_mul a b).symm
  | div =>
    simp only [exactOp, Option.ite_none_right_eq_some] at h
    obtain ⟨⟨hb, hmul⟩, hz⟩ := h
    cases hz
    have hb' : (b : ℚ) ≠ 0 := fun h0 => hb (Rat.intCast_eq_zero_iff.mp h0)
    simp only [ratArith, if_neg hb', Option.some.injEq] at hq
    rw [← hq, div_eq_iff hb', ← Int.cast_mul, Int.mul_comm, hmul]

/-- What a type of integers does with a result. -/
def Fits (w : (D : Type) → Int → Option (CNum D)) : Prop :=
  ∀ n k, w Unit n = some k → ∃ c, w (Option ℚ) n = some c ∧ c.kind = k ∧ c.toDouble rationals = some (n : ℚ)

theorem fits_int : Fits fun _ => CNum.ofInt := by
  intro n k h
  obtain ⟨hn, hk⟩ := Option.ite_none_right_eq_some.mp h
  cases hk
  exact ⟨.int n, if_pos hn, rfl, rfl⟩

theorem fits_long : Fits fun _ => CNum.ofLong := by
  intro n k h
  obtain ⟨hn, hk⟩ := Option.ite_none_right_eq_some.mp h
  cases hk
  exact ⟨.long n, if_pos hn, rfl, rfl⟩

theorem Fits.op {w : (D : Type) → Int → Option (CNum D)} (hw : Fits w) (hx : ∀ q, x = some q → some (a : ℚ) = some q)
    (hy : ∀ q, y = some q → some (b : ℚ) = some q) (hk : (exactOp o a b).bind (w Unit) = some k) :
    ∃ c, (integerOp o a b).bind (w (Option ℚ)) = some c ∧ Agrees k (c, x.bind fun p => y.bind (ratArith.op o p)) := by
  obtain ⟨z, hz, hk⟩ := Option.bind_eq_some_iff.mp hk
  obtain ⟨c, hc, hkind, hval⟩ := hw z k hk
  refine ⟨c, Option.bind_eq_some_iff.mpr ⟨z, integerOp_of_exactOp hz, hc⟩, hkind, fun q hq => ?_⟩
  obtain ⟨p, hp, hq⟩ := Option.bind_eq_some_iff.mp hq
  obtain ⟨p', hp', hq⟩ := Option.bind_eq_some_iff.mp hq
  cases hx p hp
  cases hy p' hp'
  rw [exactOp_rat hz hq]
  exact hval

theorem Fits.neg {w : (D : Type) → Int → Option (CNum D)} (hw : Fits w) (hx : ∀ q, x = some q → some (a : ℚ) = some q)
    (hk : w Unit (-a) = some k) : ∃ c, w (Option ℚ) (-a) = some c ∧ Agrees k (c, x.bind ratArith.neg) := by
  obtain ⟨c, hc, hkind, hval⟩ := hw (-a) k hk
  refine ⟨c, hc, hkind, fun q hq => ?_⟩
  obtain ⟨p, hp, hq⟩ := Option.bind_eq_some_iff.mp hq
  cases hx p hp
  cases hq
  rw [hval, Int.cast_neg]

/-- An operation with a `double` is the rational one. -/
theorem agrees_double {c d : CNum (Option ℚ)} (hx : ∀ q, x = some q → c.toDouble rationals = some q)
    (hy : ∀ q, y = some q → d.toDouble rationals = some q) : Agrees (.double ())
      (.double (rationals.op o (c.toDouble rationals) (d.toDouble rationals)),
        x.bind fun p => y.bind (ratArith.op o p)) := by
  refine ⟨rfl, fun q hq => ?_⟩
  obtain ⟨p, hp, hq⟩ := Option.bind_eq_some_iff.mp hq
  obtain ⟨p', hp', hq⟩ := Option.bind_eq_some_iff.mp hq
  show rationals.op o _ _ = some q
  rw [hx p hp, hy p' hp']
  exact hq

theorem exact_op {c c' : CNum (Option ℚ)} (hx : ∀ q, x = some q → c.toDouble rationals = some q)
    (hy : ∀ q, y = some q → c'.toDouble rationals = some q) (hk : exactArith.op o c.kind c'.kind = some k) :
    ∃ z, cArith.op o c c' = some z ∧ Agrees k (z, x.bind fun p => y.bind (ratArith.op o p)) := by
  cases c with
  | int a =>
    cases c' with
    | int b => exact fits_int.op hx hy hk
    | long b => exact fits_long.op hx hy hk
    | double u =>
      cases hk
      exact ⟨_, rfl, agrees_double (c := .int a) (d := .double u) hx hy⟩
  | long a =>
    cases c' with
    | int b => exact fits_long.op hx hy hk
    | long b => exact fits_long.op hx hy hk
    | double u =>
      cases hk
      exact ⟨_, rfl, agrees_double (c := .long a) (d := .double u) hx hy⟩
  | double u =>
    cases c' <;> cases hk <;> exact ⟨_, rfl, agrees_double (c := .double u) hx hy⟩

theorem exact_neg {c : CNum (Option ℚ)} (hx : ∀ q, x = some q → c.toDouble rationals = some q)
    (hk : exactArith.neg c.kind = some k) : ∃ z, cArith.neg c = some z ∧ Agrees k (z, x.bind ratArith.neg) := by
  cases c with
  | int a => exact fits_int.neg hx hk
  | long a => exact fits_long.neg hx hk
  | double u =>
    cases hk
    refine ⟨_, rfl, rfl, fun q hq => ?_⟩
    obtain ⟨p, hp, hq⟩ := Option.bind_eq_some_iff.mp hq
    cases hq
    have hu : u = some p := hx p hp
    show u.map _ = _
    rw [hu]
    rfl

/-- Where the static operators are defined, C's are, and agree with the rational ones. -/
theorem exact_lifts : Lifts exactArith (cArith.prod ratArith.total) Agrees where
  neg k p k' h hk := by
    obtain ⟨c, x⟩ := p
    obtain ⟨rfl, hx⟩ := h
    obtain ⟨z, hz, hr⟩ := exact_neg hx hk
    exact ⟨_, by simp only [Arith.prod, Arith.total, hz, Option.bind_some, Option.map_some], hr⟩
  op o k p k₁ p₁ k' h h₁ hk := by
    obtain ⟨c, x⟩ := p
    obtain ⟨c', y⟩ := p₁
    obtain ⟨rfl, hx⟩ := h
    obtain ⟨rfl, hy⟩ := h₁
    obtain ⟨z, hz, hr⟩ := exact_op hx hy hk
    exact ⟨_, by simp only [Arith.prod, Arith.total, hz, Option.bind_some, Option.map_some], hr⟩

end Agrees

section Value
variable {e : List Lexeme} {u : Text} {row : Int → ℚ}

/-- An expression as C reads it. -/
def cReading (row : Int → ℚ) : Reading (CNum (Option ℚ)) := ⟨cConstant, fun k => .double (some (row k))⟩

def decimalReading (row : Int → ℚ) : Reading ℚ := ⟨decimalConstant, row⟩

/-- The two at once. -/
def pairReading (row : Int → ℚ) : Reading (CNum (Option ℚ) × Option ℚ) where
  constant u := (cConstant u).map fun c => (c, decimalConstant u)
  event k := (.double (some (row k)), some (row k))

def totalReading (row : Int → ℚ) : Reading (Option ℚ) := ⟨fun u => some (decimalConstant u), fun k => some (row k)⟩

theorem decimalConstant_digits (h : u.all digit = true) {q : ℚ} (hq : decimalConstant u = some q) :
    q = (digitsValue u : ℚ) := by
  have htake : u.takeWhile digit = u := List.takeWhile_eq_self_iff.mpr (List.all_eq_true.mp h)
  have hdrop : u.dropWhile digit = [] := List.dropWhile_eq_nil_iff.mpr (List.all_eq_true.mp h)
  simp only [decimalConstant, htake, hdrop, applyExponent, scaled] at hq
  obtain ⟨-, hq⟩ := Option.ite_none_left_eq_some.mp hq
  cases hq
  simp

theorem fits_constant : Fits fun _ => intOrLong := by
  intro n k h
  simp only [intOrLong] at h ⊢
  split_ifs at h ⊢ with h₁ h₂ <;> cases h
  · exact ⟨.int n, rfl, rfl, rfl⟩
  · exact ⟨.long n, rfl, rfl, rfl⟩

theorem exact_refines (row : Int → ℚ) : exactReading.Refines (pairReading row) Agrees where
  constant u k h := by
    simp only [exactReading, pairReading, cConstant] at h ⊢
    by_cases hu : u.all digit = true
    · rw [if_pos hu] at h ⊢
      obtain ⟨hdec, hk⟩ := Option.ite_none_right_eq_some.mp h
      have hvalue : integerValue u = some (digitsValue u) := of_decide_eq_true hdec
      rw [integerConstant, hvalue] at hk
      obtain ⟨c, hc, hkind, hval⟩ := fits_constant _ k hk
      refine ⟨(c, decimalConstant u), ?_, hkind, fun q hq => ?_⟩
      · rw [integerConstant, hvalue]
        exact Option.map_eq_some_iff.mpr ⟨c, hc, rfl⟩
      · rw [decimalConstant_digits hu hq]
        exact hval
    · rw [if_neg hu] at h ⊢
      obtain ⟨q, hq, hk⟩ := Option.map_eq_some_iff.mp h
      refine ⟨(.double (some q), some q), by rw [hq]; rfl, hk, fun p hp => hp⟩
  event k := ⟨rfl, fun q hq => hq⟩

theorem pair_refines_c (row : Int → ℚ) : (pairReading row).Refines (cReading row) fun p v => p.1 = v where
  constant u p h := by
    obtain ⟨c, hc, rfl⟩ := Option.map_eq_some_iff.mp h
    exact ⟨c, hc, rfl⟩
  event k := rfl

theorem pair_refines_total (row : Int → ℚ) : (pairReading row).Refines (totalReading row) fun p v => p.2 = v where
  constant u p h := by
    obtain ⟨c, -, rfl⟩ := Option.map_eq_some_iff.mp h
    exact ⟨decimalConstant u, rfl, rfl⟩
  event k := rfl

theorem decimal_refines_total (row : Int → ℚ) :
    (decimalReading row).Refines (totalReading row) fun v x => x = some v where
  constant u _ h := ⟨decimalConstant u, rfl, h⟩
  event _ := rfl

/-- **An exact expression is evaluated by C, to its value where it has one.** -/
theorem value_of_exact (h : exact e = true) (row : Int → ℚ) : ∃ ss c, exprSymbols (cReading row) e = some ss ∧
    evaluate cArith ss = some c ∧ ∀ v, HasValue row e v → c.toDouble rationals = some v := by
  obtain ⟨k, hk⟩ := Option.isSome_iff_exists.mp h
  obtain ⟨ks, hks, hk⟩ := Option.bind_eq_some_iff.mp hk
  obtain ⟨ps, hps, hrel⟩ := (exact_refines row).symbols hks
  obtain ⟨p, hp, -, hagrees⟩ := exact_lifts.evaluate hrel hk
  obtain ⟨ss, hss, hfst⟩ := (pair_refines_c row).symbols hps
  obtain ⟨ts, hts, hsnd⟩ := (pair_refines_total row).symbols hps
  obtain ⟨c, hc, rfl⟩ := (Lifts.fst cArith ratArith.total).evaluate hfst hp
  obtain ⟨x, hx, hpx⟩ := (Lifts.snd cArith ratArith.total).evaluate hsnd hp
  refine ⟨ss, p.1, hss, hc, fun v hv => hagrees v ?_⟩
  -- the rational value, on the same symbols as the second component
  obtain ⟨rs, hrs, hmeans⟩ := hv
  obtain ⟨ts', hts', htotal⟩ := (decimal_refines_total row).symbols hrs
  rw [hts] at hts'
  cases hts'
  obtain ⟨y, hy, rfl⟩ := (Lifts.total ratArith).evaluate htotal hmeans.evaluate_eq
  rw [hx] at hy
  rw [hpx]
  exact Option.some.inj hy

end Value

end Hmon.Config
