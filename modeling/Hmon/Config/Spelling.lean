import Hmon.Config.Literal

/-!
# Spellings of a reduction

* `Operand`, `Item`, `Expression`, `Named` : the documented reductions with their spaces, and their texts;
* `Item.spaced`, `Item.joined`, `Named.found` : where the scanner finds the operands and operators;
* `reads_operand`, `reads_items` : what the parser makes of them, at any place of its stack;
* `Recorded` : the field is accepted and records one reduction for each expression;
* `recorded_iff` : **this holds exactly of the lists whose expressions are named and found by the scanner**.
-/

namespace Hmon.Config
open Lib Lib.Regex

/-! ## Expressions -/

inductive Operand
  | var (k : Text) (hne : k ≠ []) (hdigits : ∀ c ∈ k, digit c = true)
  | literal (l : Literal)

def Operand.text : Operand → Text
  | var k _ _ => '$' :: k
  | literal l => l.text

inductive Op
  | add
  | sub
  | mul
  | div
  deriving DecidableEq

def Op.char : Op → Char
  | add => '+'
  | sub => '-'
  | mul => '*'
  | div => '/'

abbrev spaces (n : Nat) : Text := List.replicate n ' '

/-- An operator and the operand behind it, with the spaces before and behind the operator. -/
structure Item where
  before : Nat
  op : Op
  behind : Nat
  operand : Operand

def Item.text (i : Item) : Text := spaces i.before ++ i.op.char :: (spaces i.behind ++ i.operand.text)

structure Expression where
  first : Operand
  items : List Item
  trailing : Nat

def itemsText (is : List Item) : Text := is.flatMap Item.text

def Expression.text (e : Expression) : Text := e.first.text ++ (itemsText e.items ++ spaces e.trailing)

/-- `name =`, with the spaces behind each. -/
structure NameEq where
  name : Text
  mem_name : name ∈ Config.name.lang
  behind : Nat
  behindEq : Nat

def NameEq.text (n : NameEq) : Text := n.name ++ (spaces n.behind ++ '=' :: spaces n.behindEq)

structure Named where
  lead : Nat
  name : Option NameEq
  expr : Expression

def Named.text (n : Named) : Text := spaces n.lead ++ (n.name.elim [] NameEq.text ++ n.expr.text)

/-- A nonempty list, separated by commas. -/
def listText : Named → List Named → Text
  | n, [] => n.text
  | n, m :: ns => n.text ++ ',' :: listText m ns

/-! ## What the scanner finds -/

def Operand.scanned : Operand → Bool
  | var _ _ _ => true
  | literal l => l.scanned

/-- The operator is not taken for the sign of a literal, or for the beginning of a path. -/
def Item.spaced (i : Item) : Bool :=
  match i.operand with
  | .var _ _ _ => true
  | .literal l => i.behind != 0 || i.op != .sub && (i.op != .div || l.frac.isSome || l.exp.isNone)

def Operand.whole : Operand → Bool
  | var _ _ _ => false
  | literal l => l.whole

/-- A minus sign and a literal that make a fraction of the digits and the point before them. -/
def Item.joined (i : Item) : Bool :=
  match i.operand with
  | .var _ _ _ => false
  | .literal l => i.before == 0 && i.op == .sub && i.behind == 0 && l.continues

def itemsFound : List Item → Bool
  | [] => true
  | i :: is => i.spaced && (i.operand.scanned && itemsFound is ||
      match is with
      | [] => false
      | j :: js => i.operand.whole && j.joined && itemsFound js)

/-- An operand before its items: a lexeme, or a lexeme together with the first item. -/
def operandFound (o : Operand) (is : List Item) : Bool :=
  o.scanned && itemsFound is ||
    match is with
    | [] => false
    | j :: js => o.whole && j.joined && itemsFound js

/-- The expression has a name, not `x`, and the scanner finds its operands and operators. -/
def Named.found (n : Named) : Bool := n.name.any (·.name != ['x']) && operandFound n.expr.first n.expr.items

/-- The list is accepted as a field, up to the semicolon, and records one reduction for each expression. -/
def Recorded (locationParse : Text → Option Nat) (f : Fields) (n : Named) (ns : List Named) (w : Text) : Prop :=
  ∃ f' rs, field locationParse f (scan ("REDUCTION:=".toList ++ (listText n ns ++ ';' :: w))) = some (f', scan w) ∧
    f'.reductions = f.reductions ++ rs ∧ List.Forall₂ (fun r n => ∀ m ∈ n.name, r = m.name) rs (n :: ns)

/-! ## Operators -/

section Operator
variable {k : TermCtx} {y : Text} {ts : List Token}

theorem Op.char_op (op : Op) : associativeOp op.char = true ∨ commutativeOp op.char = true := by
  cases op
  · exact Or.inl rfl
  · exact Or.inl rfl
  · exact Or.inr rfl
  · exact Or.inr rfl

/-- An operator is read, and the stack changes. -/
theorem reads_op (op : Op) (k : TermCtx) (y : Text) (ts : List Token) :
    ∃ k', ∀ rest, Reads k (some y) (.char op.char :: ts) rest ↔ Reads k' .none ts rest := by
  obtain ⟨k', -, h⟩ := commExpr_op op.char_op [] k y ts
  refine ⟨k', fun rest => ?_⟩
  unfold Reads
  rw [h]

end Operator

/-- Spaces, or the text behind them. -/
theorem head_spaces {p : Char → Bool} {n : Nat} {s : Text} (hp : p ' ' = false) (hs : n = 0 → Stops p s) :
    Stops p (spaces n ++ s) := by
  cases n with
  | zero => exact hs rfl
  | succ n => exact fun c hc => by cases hc; exact hp

theorem follows_spaces {n : Nat} {s : Text} (hs : Follows s) : Follows (spaces n ++ s) := by
  cases n with
  | zero => exact hs
  | succ n => exact fun c hc => by cases hc; rfl

theorem Op.follows_char (op : Op) : follows op.char = true := by cases op <;> rfl

theorem follows_item (i : Item) (s : Text) : Follows (i.text ++ s) := by
  unfold Item.text
  rw [List.append_assoc]
  exact follows_spaces fun c hc => by cases hc; exact i.op.follows_char

theorem itemsText_cons (i : Item) (is : List Item) (s : Text) :
    itemsText (i :: is) ++ s = i.text ++ (itemsText is ++ s) := by
  unfold itemsText
  rw [List.flatMap_cons, List.append_assoc]

theorem Item.text_append (i : Item) (s : Text) :
    i.text ++ s = spaces i.before ++ i.op.char :: (spaces i.behind ++ (i.operand.text ++ s)) := by
  simp [text]

section Behind
variable {i : Item} {s : Text} {k : TermCtx} {y : Text} {rest : List Token}

/-- The operator is a lexeme, if a minus sign or a slash is not directly before a literal. -/
theorem scan_op (h : i.op = .sub ∨ i.op = .div → i.behind ≠ 0 ∨ ∃ v hv hd, i.operand = .var v hv hd) :
    scan (i.op.char :: (spaces i.behind ++ (i.operand.text ++ s))) =
      .char i.op.char :: scan (spaces i.behind ++ (i.operand.text ++ s)) := by
  have hstops : i.op = .sub ∨ i.op = .div → ∀ p : Char → Bool, p ' ' = false → p '$' = false →
      Stops p (spaces i.behind ++ (i.operand.text ++ s)) := by
    intro hop p hp hp'
    refine head_spaces hp fun h0 => ?_
    obtain ⟨v, hv, hd, ho⟩ := (h hop).resolve_left (not_not.mpr h0)
    rw [ho]
    exact fun c hc => by cases hc; exact hp'
  cases hop : i.op with
  | add => exact scan_plus _
  | mul => exact scan_times _
  | sub => exact scan_minus (hstops (Or.inl hop) nameClass rfl rfl)
  | div =>
    have hstops := hstops (Or.inr hop)
    refine scan_slash fun m hm r => ⟨fun he => ?_, fun he => ?_⟩
    · cases m with
      | nil => exact absurd (length_pos_of_mem_name hm) (by simp)
      | cons c m =>
        have hc := (nameClass_of_mem_name hm).1 c List.mem_cons_self
        rw [hstops nameClass rfl rfl c (by rw [he]; rfl)] at hc
        cases hc
    · have := hstops (· == '.') rfl rfl '.' (by rw [he]; rfl)
      cases this

/-- A minus sign directly before a literal is never read as the operator of an accepted expression. -/
theorem not_reads_sub (l : Literal) : ¬ Reads k (some y) (scan ('-' :: (l.text ++ s))) rest := by
  have hsign : ∀ c ∈ l.sign, c = '-' := by
    intro c hc
    rcases l.sign_cases with ⟨hs, -⟩ | ⟨hs, -⟩ <;> rw [hs] at hc
    · cases hc
    · exact List.mem_singleton.mp hc
  by_cases hne : l.int = []
  · -- the sign is read, the point behind it is not
    obtain ⟨fs, hf, -⟩ := l.digits_ne hne
    have hfrac : l.fracText = '.' :: fs := by unfold Literal.fracText; rw [hf]; rfl
    have htext : l.text ++ s = l.sign ++ '.' :: (fs ++ l.expText ++ s) := by simp [Literal.text, hne, hfrac]
    obtain ⟨k', hop⟩ := reads_op .sub k y (scan (l.text ++ s))
    have hscan : scan ('-' :: (l.text ++ s)) = .char '-' :: scan (l.text ++ s) := by
      rw [htext]
      exact scan_minus_stops hsign fun c hc => by cases hc; rfl
    rw [hscan]
    exact fun h => Literal.not_reads_noInt hne ((hop rest).mp h)
  · -- the sign belongs to a number
    obtain ⟨d, ds, hd⟩ := List.exists_cons_of_ne_nil hne
    have hdigit : digit d = true := l.digit_int d (by rw [hd]; exact List.mem_cons_self)
    have hinteger : ∀ o ∈ (opt (chr '-')).lang, o ++ [d] ∈ integer.lang := fun o ho =>
      mem_seq.mpr ⟨o, ho, [d], mem_plus_cls.mpr ⟨by simp, by simpa using hdigit⟩, rfl⟩
    have hreal : '-' :: (l.sign ++ [d]) ∈ real.lang := by
      have hsign' : l.sign ∈ (opt (chr '-')).lang := by
        rcases l.sign_cases with ⟨hs, -⟩ | ⟨hs, -⟩ <;> rw [hs]
        · exact mem_opt.mpr (Or.inl rfl)
        · exact mem_opt.mpr (Or.inr (mem_chr.mpr rfl))
      exact mem_seq.mpr ⟨['-'], mem_opt.mpr (Or.inr (mem_chr.mpr rfl)), l.sign ++ [d],
        mem_seq.mpr ⟨_, hinteger _ hsign', [], nil_mem_fractionExponent, by simp⟩, rfl⟩
    have htakes : Lexer.Takes ('-' :: (l.text ++ s)) realRule ('-' :: (l.sign ++ [d])).length := by
      have htext : '-' :: (l.text ++ s) = '-' :: (l.sign ++ [d]) ++ (ds ++ (l.fracText ++ l.expText) ++ s) := by
        simp [Literal.text, hd]
      rw [htext]
      exact ⟨by simp, by rw [List.take_left]; exact hreal⟩
    have hrule : realRule ∈ rules := by simp [rules]
    obtain ⟨t, ts, hscan, ht⟩ := scan_long (by decide) (by decide) hrule htakes (by simp)
    rw [hscan]
    exact not_reads_op ht

/-- A slash directly before an integer with an exponent starts a path. -/
theorem not_reads_div {l : Literal} {x : Exponent} (hf : l.frac = .none) (hx : l.exp = some x) :
    ¬ Reads k (some y) (scan ('/' :: (l.text ++ s))) rest := by
  have halpha : alpha x.letter = true := by rcases Literal.isExp_cases x.isExp_letter with h | h <;> rw [h] <;> rfl
  have hmem : l.sign ++ l.int ++ [x.letter] ∈ name.lang :=
    mem_name.mpr (Or.inr ⟨_, x.letter, rfl, halpha, fun c hc => (l.sign_letterless c hc).1⟩)
  have htext : l.text ++ s = l.sign ++ l.int ++ [x.letter] ++ (x.sign.toList ++ x.digits ++ s) := by
    simp [Literal.text, Literal.fracText, Literal.expText, hf, hx, Exponent.text]
  obtain ⟨t, ts, hscan, ht⟩ := scan_path hmem (Or.inl htext)
  rw [hscan]
  exact not_reads_op ht

/-- Before other literals, the slash is the operator, or the literal is not read in either way. -/
theorem reads_div {l : Literal} (hl : l.frac = .none → l.exp = .none) (hs : Follows s) :
    ∃ k', ∀ rest, Reads k (some y) (scan ('/' :: (l.text ++ s))) rest ↔ Reads k' .none (scan (l.text ++ s)) rest := by
  by_cases h : ∃ m ∈ name.lang, ∃ r, l.text ++ s = m ++ r ∨ l.text ++ s = '.' :: (m ++ r)
  · refine ⟨k, fun rest => iff_of_false ?_ ?_⟩
    · obtain ⟨m, hm, r, hr⟩ := h
      obtain ⟨t, ts, hscan, ht⟩ := scan_path hm hr
      rw [hscan]
      exact not_reads_op ht
    · obtain ⟨m, hm, r, hr | hr⟩ := h
      · by_cases hne : l.int = []
        · exact Literal.not_reads_noInt hne
        · cases hf : l.frac with
          | some fs =>
            have hdot : Stops nameClass ('.' :: fs ++ l.expText ++ s) := fun c hc => by cases hc; rfl
            have htext : l.text ++ s = l.sign ++ (l.int ++ ('.' :: fs ++ l.expText ++ s)) := by
              simp [Literal.text, Literal.fracText, hf]
            rw [htext] at hr
            exact absurd hm (Literal.no_name hdot hr)
          | none =>
            have htext : l.text ++ s = l.sign ++ (l.int ++ s) := by
              simp [Literal.text, Literal.fracText, Literal.expText, hf, hl hf]
            have hlongest : longest (seq fraction exponent) s = some 0 := by
              rw [longest_fraction_none hs.noFraction, longest_exponent_none hs.noExponent]
            -- the name has a letter, so it goes beyond the digits
            have hlen : l.sign.length + l.int.length + 0 ≤ m.length := by
              obtain ⟨-, c, hc, halpha⟩ := nameClass_of_mem_name hm
              by_contra hlt
              rw [htext, ← List.append_assoc] at hr
              rcases List.append_eq_append_iff.mp hr with ⟨es, rfl, -⟩ | ⟨es, hes, -⟩
              · simp only [List.length_append] at hlt
                omega
              · have := (l.sign_letterless c (by rw [hes]; exact List.mem_append_left _ hc)).2
                rw [halpha] at this
                cases this
            rw [htext] at hr ⊢
            obtain ⟨v, ts, hscan⟩ := Literal.scan_of_name hne hs.stops_digit hlongest hm hr hlen
            rw [hscan]
            exact not_reads_term rfl Token.noConfusion
      · rw [hr, scan_dot]
        exact not_reads_term rfl (by decide)
  · obtain ⟨k', hop⟩ := reads_op .div k y (scan (l.text ++ s))
    refine ⟨k', fun rest => ?_⟩
    rw [scan_slash fun m hm r => ⟨fun he => h ⟨m, hm, r, Or.inl he⟩, fun he => h ⟨m, hm, r, Or.inr he⟩⟩]
    exact hop rest

end Behind

/-! ## Expressions -/

section Expression
variable {n : Nat} {c : Char} {T : Text}

theorem follows_items (hc : separator c = true) (is : List Item) : Follows (itemsText is ++ (spaces n ++ c :: T)) := by
  cases is with
  | nil =>
    refine follows_spaces fun d hd => ?_
    cases hd
    rcases separator_cases hc with rfl | rfl <;> rfl
  | cons i is =>
    rw [itemsText_cons]
    exact follows_item i _

/-- A spaced minus sign is not directly before a literal. -/
theorem Item.spaced_sub {i : Item} (h : i.spaced = true) (hop : i.op = .sub) :
    i.behind ≠ 0 ∨ ∃ v hv hd, i.operand = .var v hv hd := by
  unfold spaced at h
  cases ho : i.operand with
  | var v hv hd => exact Or.inr ⟨v, hv, hd, rfl⟩
  | literal l =>
    rw [ho, hop] at h
    exact Or.inl (by simpa using h)

theorem Item.spaced_of {i : Item}
    (h : i.op = .sub ∨ i.op = .div → i.behind ≠ 0 ∨ ∃ v hv hd, i.operand = .var v hv hd) : i.spaced = true := by
  unfold spaced
  cases ho : i.operand with
  | var v hv hd => rfl
  | literal l =>
    have hfar : i.op = .sub ∨ i.op = .div → i.behind ≠ 0 := fun hop =>
      (h hop).resolve_right fun ⟨v, hv, hd, he⟩ => by rw [ho] at he; cases he
    cases hop : i.op <;> simp [hop] at hfar ⊢ <;> simp [hfar]

theorem itemsFound_spaced {i : Item} {is : List Item} (h : itemsFound (i :: is) = true) : i.spaced = true := by
  unfold itemsFound at h
  exact (Bool.and_eq_true _ _ ▸ h).1

/-- Behind an accepted operand no letter joins it. -/
theorem letterless_items (hc : separator c = true) {is : List Item} (h : itemsFound is = true) :
    Literal.Letterless (itemsText is ++ (spaces n ++ c :: T)) := by
  have hstop : ∀ R : Text, Stops nameClass R → Literal.Letterless R := fun R hR =>
    ⟨[], R, rfl, by simp, by simp, hR⟩
  cases is with
  | nil =>
    refine hstop _ (head_spaces rfl fun _ d hd => ?_)
    cases hd
    exact separator_not_class hc
  | cons i is =>
    rw [itemsText_cons, i.text_append]
    by_cases hsub : i.before = 0 ∧ i.op = .sub
    · obtain ⟨hbefore, hop⟩ := hsub
      have hbehind := Item.spaced_sub (itemsFound_spaced h) hop
      rw [hbefore, hop]
      refine ⟨['-'], _, rfl, by decide, by decide, head_spaces rfl fun h0 => ?_⟩
      obtain ⟨v, hv, hd, ho⟩ := hbehind.resolve_left (not_not.mpr h0)
      rw [ho]
      exact fun d hd => by cases hd; rfl
    · refine hstop _ (head_spaces rfl fun h0 d hd => ?_)
      cases hd
      cases hop : i.op with
      | sub => exact absurd ⟨h0, hop⟩ hsub
      | _ => rfl

/-- What the parser makes of the items behind an operand. -/
def ItemsRead (n : Nat) (c : Char) (T : Text) (is : List Item) : Prop :=
  ∀ k y rest, Reads k (some y) (scan (itemsText is ++ (spaces n ++ c :: T))) rest ↔
    itemsFound is = true ∧ rest = scan (c :: T)

theorem operandFound_scanned {o : Operand} (hw : o.whole = false) (hs : o.scanned = true) (is : List Item) :
    operandFound o is = itemsFound is := by
  unfold operandFound
  rw [hs, hw]
  cases is <;> simp

theorem operandFound_whole {o : Operand} (hw : o.whole = true) (hs : o.scanned = false) (j : Item) (js : List Item) :
    operandFound o (j :: js) = (j.joined && itemsFound js) := by
  unfold operandFound
  rw [hs, hw]
  simp

theorem operandFound_neither {o : Operand} (hw : o.whole = false) (hs : o.scanned = false) (is : List Item) :
    operandFound o is = false := by
  unfold operandFound
  rw [hs, hw]
  cases is <;> simp

theorem Literal.not_whole_of_scanned {l : Literal} (h : l.scanned = true) : l.whole = false := by
  unfold scanned at h
  unfold whole
  rw [Bool.and_eq_true, Bool.and_eq_true, bne_iff_ne] at h
  simp [h.1.2]

/-- No integer starts at the operator of an item, unless it is a minus sign directly before digits. -/
theorem noInteger_item {j : Item} {s : Text}
    (h : j.before = 0 → j.op = .sub → j.behind = 0 → ∀ l, j.operand = .literal l → l.neg = true ∨ l.int = []) :
    NoInteger (j.text ++ s) := by
  refine ⟨(follows_item j s).stops_digit, fun t ht => ?_⟩
  rw [j.text_append] at ht
  cases hb : j.before with
  | succ m =>
    rw [hb] at ht
    exact absurd (List.cons.inj ht).1 (by decide)
  | zero =>
    rw [hb] at ht
    obtain ⟨hop, rfl⟩ := List.cons.inj ht
    have hop : j.op = .sub := by cases hj : j.op <;> rw [hj] at hop <;> first | rfl | exact absurd hop (by decide)
    refine head_spaces rfl fun h0 => ?_
    cases ho : j.operand with
    | var v hv hd => exact fun d hd => by cases hd; rfl
    | literal l =>
      show Stops digit (l.sign ++ (l.int ++ (l.fracText ++ l.expText)) ++ s)
      have hl := h hb hop h0 l ho
      rcases l.sign_cases with ⟨hs, hneg⟩ | ⟨hs, -⟩ <;> rw [hs]
      · have hint : l.int = [] := hl.resolve_left (by rw [hneg]; decide)
        obtain ⟨fs, hf, -⟩ := l.digits_ne hint
        have hfrac : l.fracText = '.' :: fs := by unfold Literal.fracText; rw [hf]; rfl
        rw [hint, hfrac]
        exact fun d hd => by cases hd; rfl
      · exact fun d hd => by cases hd; rfl

/-- **An operand and the items behind it.** -/
theorem reads_operand (hc : separator c = true) {is : List Item} (h : ItemsRead n c T is)
    (htail : ∀ j js, is = j :: js → ItemsRead n c T js) (o : Operand) (k : TermCtx) (rest : List Token) :
    Reads k .none (scan (o.text ++ (itemsText is ++ (spaces n ++ c :: T)))) rest ↔
      operandFound o is = true ∧ rest = scan (c :: T) := by
  have hR := follows_items (n := n) (T := T) hc is
  cases o with
  | var v hv hd =>
    rw [operandFound_scanned rfl rfl, Operand.text, List.cons_append, scan_var hv hd hR.stops_digit, reads_term rfl]
    exact h k _ rest
  | literal l =>
    show Reads k .none (scan (l.text ++ (itemsText is ++ (spaces n ++ c :: T)))) rest ↔ _
    by_cases hs : l.scanned = true
    · rw [operandFound_scanned (o := .literal l) (Literal.not_whole_of_scanned hs) hs]
      rcases Literal.scan_scanned hs hR with ⟨t, x, ht, hscan⟩ | ⟨hletter, s, ts, hscan⟩
      · rw [hscan, reads_term ht]
        exact h k x rest
      · rw [hscan]
        exact iff_of_false (not_reads_term rfl Token.noConfusion) fun hf => hletter (letterless_items hc hf.1)
    · rw [Bool.not_eq_true] at hs
      by_cases hw : l.whole = true
      · have htext : ∀ s : Text, l.text ++ s = l.sign ++ (l.int ++ '.' :: s) ∧ l.int ≠ [] := by
          intro s
          unfold Literal.whole at hw
          rw [Bool.and_eq_true, Bool.and_eq_true, beq_iff_eq, Option.isNone_iff_eq_none] at hw
          exact ⟨by simp [Literal.text, Literal.fracText, Literal.expText, hw.1.2, hw.2], by simpa using hw.1.1⟩
        cases is with
        | nil =>
          refine iff_of_false ?_ fun hf => ?_
          · rw [(htext _).1]
            refine Literal.not_reads_point (htext []).2 ⟨hR.stops_digit, fun t ht => ?_⟩
            cases n with
            | zero =>
              obtain ⟨rfl, -⟩ := List.cons.inj ht
              cases hc
            | succ n => exact absurd (List.cons.inj ht).1 (by decide)
          · have hfound : operandFound (.literal l) [] = l.scanned := by
              simp [operandFound, itemsFound, Operand.scanned]
            rw [hfound, hs] at hf
            cases hf.1
        | cons j js =>
          rw [operandFound_whole (o := .literal l) hw hs, itemsText_cons]
          have hjs := htail j js rfl
          by_cases hj : j.before = 0 ∧ j.op = .sub ∧ j.behind = 0 ∧
              ∃ m, j.operand = .literal m ∧ m.neg = false ∧ m.int ≠ []
          · obtain ⟨hb, hop, h0, m, ho, hneg, hint⟩ := hj
            have hjoined : j.joined = m.continues := by simp [Item.joined, ho, hb, hop, h0]
            obtain ⟨y, hread⟩ := Literal.reads_joined hw hneg hint (follows_items (n := n) (T := T) hc js) k
            rw [hjoined, j.text_append, hb, hop, h0, ho, Bool.and_eq_true, and_assoc]
            exact (hread rest).trans (and_congr_right fun _ => hjs k y rest)
          · have hjoined : j.joined = false := by
              unfold Item.joined
              cases ho : j.operand with
              | var v hv hd => rfl
              | literal m =>
                by_contra hcont
                simp only [Bool.not_eq_false, Bool.and_eq_true, beq_iff_eq, Literal.continues] at hcont
                exact hj ⟨hcont.1.1.1, hcont.1.1.2, hcont.1.2, m, ho, by simpa using hcont.2.1.1.1,
                  by simpa using hcont.2.1.1.2⟩
            rw [hjoined, Bool.false_and, (htext _).1]
            refine iff_of_false (Literal.not_reads_point (htext []).2 (noInteger_item fun hb hop h0 m ho => ?_))
              fun hf => Bool.false_ne_true hf.1
            by_contra hm
            rw [not_or, Bool.not_eq_true] at hm
            exact hj ⟨hb, hop, h0, m, ho, hm.1, hm.2⟩
      · rw [Bool.not_eq_true] at hw
        rw [operandFound_neither (o := .literal l) hw hs]
        exact iff_of_false (Literal.not_reads_unscanned hs hw hR) fun hf => Bool.false_ne_true hf.1

theorem itemsFound_cons (i : Item) (is : List Item) :
    itemsFound (i :: is) = (i.spaced && operandFound i.operand is) := by
  cases is <;> rfl

/-- **The items behind an operand**, one after the other. -/
theorem reads_items (hc : separator c = true) (is : List Item) :
    ItemsRead n c T is ∧ ∀ j js, is = j :: js → ItemsRead n c T js := by
  induction is with
  | nil =>
    refine ⟨fun k y rest => ?_, fun j js h => by cases h⟩
    show Reads k (some y) (scan (spaces n ++ c :: T)) rest ↔ true = true ∧ _
    rw [scan_spaces, scan_separator hc, reads_separator hc]
    simp
  | cons i is ih =>
    refine ⟨fun k y rest => ?_, fun j js h => by cases h; exact ih.1⟩
    have hoperand := reads_operand hc ih.1 ih.2 i.operand
    rw [itemsText_cons, i.text_append, scan_spaces, itemsFound_cons]
    -- the operator is read, and the operand behind it
    have hread : ∀ k', (∀ rest, Reads k (some y)
        (scan (i.op.char :: (spaces i.behind ++ (i.operand.text ++ (itemsText is ++ (spaces n ++ c :: T)))))) rest ↔
          Reads k' .none (scan (i.operand.text ++ (itemsText is ++ (spaces n ++ c :: T)))) rest) → i.spaced = true →
        (Reads k (some y)
          (scan (i.op.char :: (spaces i.behind ++ (i.operand.text ++ (itemsText is ++ (spaces n ++ c :: T)))))) rest ↔
            (i.spaced && operandFound i.operand is) = true ∧ rest = scan (c :: T)) := by
      intro k' hk' hspaced
      rw [hk', hoperand, hspaced, Bool.true_and]
    by_cases hfar : i.op = .sub ∨ i.op = .div → i.behind ≠ 0 ∨ ∃ v hv hd, i.operand = .var v hv hd
    · obtain ⟨k', hop⟩ := reads_op i.op k y
        (scan (spaces i.behind ++ (i.operand.text ++ (itemsText is ++ (spaces n ++ c :: T)))))
      exact hread k' (fun rest => by rw [scan_op hfar, hop, scan_spaces]) (Item.spaced_of hfar)
    · -- a minus sign or a slash directly before a literal
      rw [Classical.not_imp, not_or, not_not] at hfar
      obtain ⟨hop, h0, hvar⟩ := hfar
      cases ho : i.operand with
      | var v hv hd => exact absurd ⟨v, hv, hd, ho⟩ hvar
      | literal l =>
        have hspaced : i.spaced = (i.op != .sub && (i.op != .div || l.frac.isSome || l.exp.isNone)) := by
          simp [Item.spaced, ho, h0]
        rw [ho] at hread
        rw [h0] at hread ⊢
        rcases hop with hop | hop
        · rw [hspaced, hop]
          exact iff_of_false (not_reads_sub l) fun hf => Bool.false_ne_true hf.1
        · rw [hop] at hread hspaced ⊢
          by_cases hexp : l.frac = .none → l.exp = .none
          · obtain ⟨k', hk⟩ := reads_div (k := k) (y := y) hexp (follows_items (n := n) (T := T) hc is)
            refine hread k' hk (hspaced.trans ?_)
            cases hf : l.frac with
            | none => rw [hexp hf]; rfl
            | some fs => rfl
          · rw [Classical.not_imp] at hexp
            obtain ⟨hf, hx⟩ := hexp
            obtain ⟨x, hx⟩ := Option.ne_none_iff_exists'.mp hx
            rw [hspaced, hf, hx]
            exact iff_of_false (not_reads_div hf hx) fun hf => Bool.false_ne_true hf.1

end Expression

/-! ## One assignment -/

/-- The characters of an expression. -/
def exprChar (c : Char) : Bool := digit c || isExp c || c == '.' || c == '$' || follows c

theorem exprChar_digits {ds : Text} (h : ∀ c ∈ ds, digit c = true) : ∀ c ∈ ds, exprChar c = true := by
  intro c hc
  simp [exprChar, h c hc]

theorem exprChar_spaces (n : Nat) : ∀ c ∈ spaces n, exprChar c = true := by
  intro c hc
  rw [List.eq_of_mem_replicate hc]
  rfl

theorem Literal.exprChar_text (l : Literal) : ∀ c ∈ l.text, exprChar c = true := by
  unfold text
  simp only [List.forall_mem_append]
  refine ⟨?_, exprChar_digits l.digit_int, ?_, ?_⟩
  · rcases l.sign_cases with ⟨hs, -⟩ | ⟨hs, -⟩ <;> rw [hs] <;> decide
  · unfold fracText
    cases hf : l.frac with
    | none => exact fun c hc => absurd hc List.not_mem_nil
    | some fs => exact List.forall_mem_cons.mpr ⟨rfl, exprChar_digits (l.digit_frac fs hf)⟩
  · unfold expText
    cases l.exp with
    | none => exact fun c hc => absurd hc List.not_mem_nil
    | some x =>
      refine List.forall_mem_cons.mpr ⟨by simp [exprChar, x.isExp_letter],
        List.forall_mem_append.mpr ⟨fun c hc => ?_, ?_⟩⟩
      · have hsign : c = '+' ∨ c = '-' := by simpa [isSign] using x.isSign_sign c (Option.mem_toList.mp hc)
        rcases hsign with rfl | rfl <;> rfl
      · exact exprChar_digits x.digit_digits

theorem Operand.exprChar_text (o : Operand) : ∀ c ∈ o.text, exprChar c = true := by
  cases o with
  | var v hv hd => exact List.forall_mem_cons.mpr ⟨rfl, exprChar_digits hd⟩
  | literal l => exact l.exprChar_text

theorem Item.exprChar_text (i : Item) : ∀ c ∈ i.text, exprChar c = true := by
  unfold text
  simp only [List.forall_mem_append, List.forall_mem_cons]
  exact ⟨exprChar_spaces i.before, by simp [exprChar, i.op.follows_char], exprChar_spaces i.behind,
    i.operand.exprChar_text⟩

theorem Expression.exprChar_text (e : Expression) : ∀ c ∈ e.text, exprChar c = true := by
  unfold text
  simp only [List.forall_mem_append]
  refine ⟨e.first.exprChar_text, ?_, exprChar_spaces e.trailing⟩
  intro c hc
  obtain ⟨i, -, hi⟩ := List.mem_flatMap.mp hc
  exact i.exprChar_text c hi

section Assignement
variable {f f' : Fields} {ts rest : List Token} {c : Char} {T : Text}

/-- What an assignment starts with, and what it adds. -/
theorem assignement_some (h : assignement f ts = some (f', rest)) :
    ∃ m us, ts = .name m :: .char '=' :: us ∧ Reads .empty .none us rest ∧ f'.reductions = f.reductions ++ [m] := by
  unfold assignement at h
  split at h
  · rename_i m us
    split at h
    · rename_i x us' hx
      cases h
      exact ⟨m, us, rfl, ⟨x, hx⟩, rfl⟩
    · cases h
  · cases h

theorem assignement_of_reads {m : Text} (h : Reads .empty .none ts rest) (f : Fields) :
    ∃ f', assignement f (.name m :: .char '=' :: ts) = some (f', rest) := by
  obtain ⟨x, hx⟩ := h
  simp only [assignement, hx]
  exact ⟨_, rfl⟩

theorem assignement_length (h : assignement f ts = some (f', rest)) : rest.length < ts.length := by
  obtain ⟨m, us, rfl, ⟨x, hx⟩, -⟩ := assignement_some h
  obtain ⟨us₁, rfl, -⟩ := commExpr_iff.mp hx
  simp only [List.length_cons, List.length_append]
  omega

/-- An expression without a name is no assignment, and no call of a plugin. -/
theorem scan_unnamed (e : Expression) (hc : separator c = true) {s m : Text} {d : Char} (hd : d = '=' ∨ d = '#') :
    scan (e.text ++ c :: T) ≠ .name m :: .char d :: ts ∧ scan (e.text ++ c :: T) ≠ .integer s :: .char d :: ts := by
  have hchars : ∀ a ∈ e.text, a ≠ 'x' ∧ a ≠ '%' := by
    intro a ha
    have := e.exprChar_text a ha
    constructor <;> rintro rfl <;> cases this
  have hne : ¬ (d = c ∨ d ∈ e.text) := by
    rintro (rfl | hmem)
    · rcases hd with rfl | rfl <;> cases hc
    · have := e.exprChar_text d hmem
      rcases hd with rfl | rfl <;> cases this
  exact ⟨fun h => hne (scan_second_char hchars hc (Or.inl rfl) h),
    fun h => hne (scan_second_char hchars hc (Or.inr rfl) h)⟩

theorem scan_nameEq (n : NameEq) (hx : n.name ≠ ['x']) (s : Text) :
    scan (n.text ++ s) = .name n.name :: .char '=' :: scan s := by
  have htext : n.text ++ s = n.name ++ (spaces n.behind ++ '=' :: (spaces n.behindEq ++ s)) := by simp [NameEq.text]
  have hequals : scan (spaces n.behind ++ '=' :: (spaces n.behindEq ++ s)) = .char '=' :: scan s := by
    rw [scan_spaces, scan_equals, scan_spaces]
  rw [htext, ← hequals]
  cases n.behind with
  | zero => exact scan_name n.mem_name hx (Or.inr rfl)
  | succ k => exact scan_name n.mem_name hx (Or.inl rfl)

/-- The name `x` is lost with the character behind it. -/
theorem scan_nameX (n : NameEq) (hx : n.name = ['x']) (s : Text) :
    scan (n.text ++ s) = scan s ∨ scan (n.text ++ s) = .char '=' :: scan s := by
  have htext : n.text ++ s = 'x' :: (spaces n.behind ++ '=' :: (spaces n.behindEq ++ s)) := by simp [NameEq.text, hx]
  rw [htext]
  cases n.behind with
  | zero =>
    refine Or.inl ?_
    show scan ('x' :: '=' :: (spaces n.behindEq ++ s)) = scan s
    rw [scan_x (Or.inr rfl), scan_spaces]
  | succ k =>
    refine Or.inr ?_
    show scan ('x' :: ' ' :: (spaces k ++ '=' :: (spaces n.behindEq ++ s))) = _
    rw [scan_x (Or.inl rfl), scan_spaces, scan_equals, scan_spaces]

/-- **One assignment of the list.** -/
theorem assignement_iff (n : Named) (hc : separator c = true) (f : Fields) (rest : List Token) :
    (∃ f', assignement f (scan (n.text ++ c :: T)) = some (f', rest)) ↔ n.found = true ∧ rest = scan (c :: T) := by
  have htext : n.text ++ c :: T = spaces n.lead ++ (n.name.elim [] NameEq.text ++ (n.expr.text ++ c :: T)) := by
    simp [Named.text]
  rw [htext, scan_spaces]
  have hunnamed : ¬ ∃ f', assignement f (scan (n.expr.text ++ c :: T)) = some (f', rest) := by
    rintro ⟨f', h⟩
    obtain ⟨m, us, hts, -⟩ := assignement_some h
    exact (scan_unnamed (s := m) n.expr hc (Or.inl rfl)).1 hts
  cases hname : n.name with
  | none =>
    refine iff_of_false hunnamed fun hf => ?_
    rw [Named.found, hname] at hf
    cases hf.1
  | some m =>
    show (∃ f', assignement f (scan (m.text ++ (n.expr.text ++ c :: T))) = some (f', rest)) ↔ _
    by_cases hx : m.name = ['x']
    · refine iff_of_false ?_ fun hf => ?_
      · rcases scan_nameX m hx (n.expr.text ++ c :: T) with h | h
        · rw [h]
          exact hunnamed
        · rw [h]
          rintro ⟨f', h'⟩
          obtain ⟨_, _, hts, -⟩ := assignement_some h'
          cases hts
      · have hfound : n.found = false := by simp [Named.found, hname, hx]
        rw [hfound] at hf
        cases hf.1
    · have hfound : n.found = operandFound n.expr.first n.expr.items := by simp [Named.found, hname, hx]
      have hexpr : n.expr.text ++ c :: T =
          n.expr.first.text ++ (itemsText n.expr.items ++ (spaces n.expr.trailing ++ c :: T)) := by
        simp [Expression.text]
      have hitems := reads_items (n := n.expr.trailing) (T := T) hc n.expr.items
      rw [scan_nameEq m hx, hfound, hexpr, ← reads_operand hc hitems.1 hitems.2 _ .empty]
      constructor
      · rintro ⟨f', h⟩
        obtain ⟨_, us, hts, hread, -⟩ := assignement_some h
        obtain ⟨-, hts⟩ := List.cons.inj hts
        obtain ⟨-, rfl⟩ := List.cons.inj hts
        exact hread
      · exact fun h => assignement_of_reads h f

/-- It adds its name. -/
theorem assignement_reductions {n : Named} (hc : separator c = true)
    (h : assignement f (scan (n.text ++ c :: T)) = some (f', rest)) :
    ∃ m, f'.reductions = f.reductions ++ [m] ∧ ∀ e ∈ n.name, m = e.name := by
  obtain ⟨hfound, -⟩ := (assignement_iff n hc f rest).mp ⟨f', h⟩
  obtain ⟨m, us, hts, -, hred⟩ := assignement_some h
  refine ⟨m, hred, fun e he => ?_⟩
  have hx : e.name ≠ ['x'] := by
    rw [Named.found, he, Bool.and_eq_true] at hfound
    simpa [Option.any] using hfound.1
  have htext : n.text ++ c :: T = spaces n.lead ++ (e.text ++ (n.expr.text ++ c :: T)) := by
    rw [Named.text, he]
    simp
  rw [htext, scan_spaces, scan_nameEq e hx] at hts
  exact (Token.name.inj (List.cons.inj hts).1).symm

end Assignement

/-! ## The list -/

section List
variable {f f' : Fields} {ns : List Named} {w : Text} {fuel : Nat} {rest : List Token}

/-- What an accepted list is, and what it records. -/
theorem list_of_reads (n : Named)
    (h : sepBy assignement comma fuel f (scan (listText n ns ++ ';' :: w)) = some (f', rest)) :
    (∀ m ∈ n :: ns, m.found = true) ∧ rest = scan (';' :: w) ∧
      ∃ rs, f'.reductions = f.reductions ++ rs ∧ List.Forall₂ (fun r n => ∀ e ∈ n.name, r = e.name) rs (n :: ns) := by
  induction ns generalizing n f fuel with
  | nil =>
    cases fuel with
    | zero => cases h
    | succ fuel =>
      rw [listText] at h
      obtain ⟨f₁, ts, ha, hrest⟩ := sepBy_step h
      obtain ⟨hfound, rfl⟩ := (assignement_iff n rfl f ts).mp ⟨f₁, ha⟩
      obtain ⟨m, hm, hname⟩ := assignement_reductions rfl ha
      rw [scan_semicolon] at hrest ⊢
      rcases hrest with ⟨-, hb⟩ | ⟨ts₂, hn, -⟩
      · cases hb
        exact ⟨by simpa using hfound, rfl, [m], hm, .cons hname .nil⟩
      · cases hn
  | cons m ns ih =>
    cases fuel with
    | zero => cases h
    | succ fuel =>
      rw [listText, List.append_assoc, List.cons_append] at h
      obtain ⟨f₁, ts, ha, hrest⟩ := sepBy_step h
      obtain ⟨hfound, rfl⟩ := (assignement_iff n rfl f ts).mp ⟨f₁, ha⟩
      obtain ⟨r, hr, hname⟩ := assignement_reductions rfl ha
      rw [scan_comma] at hrest
      rcases hrest with ⟨hn, -⟩ | ⟨ts₂, hn, h⟩
      · cases hn
      · cases hn
        obtain ⟨hall, hrest, rs, hrs, hnames⟩ := ih m h
        refine ⟨List.forall_mem_cons.mpr ⟨hfound, hall⟩, hrest, r :: rs, ?_, .cons hname hnames⟩
        rw [hrs, hr, List.append_assoc, List.singleton_append]

/-- A list of found expressions is accepted. -/
theorem reads_of_list (n : Named) (h : ∀ m ∈ n :: ns, m.found = true)
    (hfuel : (scan (listText n ns ++ ';' :: w)).length < fuel) (f : Fields) :
    ∃ f', sepBy assignement comma fuel f (scan (listText n ns ++ ';' :: w)) = some (f', scan (';' :: w)) := by
  induction ns generalizing n f fuel with
  | nil =>
    obtain ⟨fuel, rfl⟩ : ∃ k, fuel = k + 1 := ⟨fuel - 1, by omega⟩
    obtain ⟨f', hf⟩ := (assignement_iff (T := w) n (c := ';') rfl f _).mpr ⟨h n List.mem_cons_self, rfl⟩
    refine ⟨f', ?_⟩
    rw [listText]
    simp only [sepBy, hf]
    rw [scan_semicolon]
    rfl
  | cons m ns ih =>
    obtain ⟨fuel, rfl⟩ : ∃ k, fuel = k + 1 := ⟨fuel - 1, by omega⟩
    rw [listText, List.append_assoc, List.cons_append] at hfuel ⊢
    obtain ⟨f₁, hf⟩ := (assignement_iff (T := listText m ns ++ ';' :: w) n (c := ',') rfl f _).mpr
      ⟨h n List.mem_cons_self, rfl⟩
    have hlen := assignement_length hf
    rw [scan_comma, List.length_cons] at hlen
    obtain ⟨f', hf'⟩ := ih m (fun k hk => h k (List.mem_cons_of_mem _ hk)) (show _ < fuel by omega) f₁
    refine ⟨f', ?_⟩
    simp only [sepBy, hf]
    rw [scan_comma]
    exact hf'

theorem listText_head (n : Named) (ns : List Named) (w : Text) :
    ∃ c T, separator c = true ∧ listText n ns ++ ';' :: w = n.text ++ c :: T := by
  cases ns with
  | nil => exact ⟨';', w, rfl, rfl⟩
  | cons m ns => exact ⟨',', listText m ns ++ ';' :: w, rfl, by rw [listText, List.append_assoc, List.cons_append]⟩

end List

/-! ## The field -/

theorem reduction_some {f : Fields} {ts : List Token} {r : Fields × List Token} (h : reduction f ts = some r) :
    (∃ n g us, ts = .integer n :: .char '#' :: .name g :: us) ∨
      ∃ f₁, assignementList f ts = some (f₁, r.2) ∧
        r.1 = { f₁ with reductionCode := f₁.reductionCode.map wrapReduction } := by
  unfold reduction at h
  split at h
  · exact Or.inl ⟨_, _, _, rfl⟩
  · split at h
    · rename_i f₁ us hl
      cases h
      exact Or.inr ⟨f₁, hl, rfl⟩
    · cases h

/-- The text of a list does not call a plugin. -/
theorem scan_list_ne (n : Named) (ns : List Named) (w : Text) {s g : Text} {us : List Token} :
    scan (listText n ns ++ ';' :: w) ≠ .integer s :: .char '#' :: .name g :: us := by
  obtain ⟨c, T, hc, htext⟩ := listText_head n ns w
  have hnamed : n.text ++ c :: T = spaces n.lead ++ (n.name.elim [] NameEq.text ++ (n.expr.text ++ c :: T)) := by
    simp [Named.text]
  rw [htext, hnamed, scan_spaces]
  have hunnamed : scan (n.expr.text ++ c :: T) ≠ .integer s :: .char '#' :: .name g :: us :=
    (scan_unnamed (m := s) n.expr hc (Or.inr rfl)).2
  cases n.name with
  | none => exact hunnamed
  | some m =>
    show scan (m.text ++ (n.expr.text ++ c :: T)) ≠ _
    by_cases hx : m.name = ['x']
    · rcases scan_nameX m hx (n.expr.text ++ c :: T) with h | h <;> rw [h]
      · exact hunnamed
      · exact fun h => by cases h
    · rw [scan_nameEq m hx]
      exact fun h => by cases h

theorem found_of_recorded {locationParse : Text → Option Nat} {f : Fields} {n : Named} {ns : List Named} {w : Text}
    (h : Recorded locationParse f n ns w) : ∀ m ∈ n :: ns, m.found = true := by
  obtain ⟨f', rs, h, -, -⟩ := h
  rw [scan_reduction] at h
  obtain ⟨r, hr, -⟩ := Option.bind_eq_some_iff.mp h
  rcases reduction_some hr with ⟨s, g, us, hts⟩ | ⟨f₁, hl, -⟩
  · exact absurd hts (scan_list_ne n ns w)
  · exact (list_of_reads n hl).1

theorem recorded_of_found {n : Named} {ns : List Named} (h : ∀ m ∈ n :: ns, m.found = true)
    (locationParse : Text → Option Nat) (f : Fields) (w : Text) : Recorded locationParse f n ns w := by
  obtain ⟨f₁, hl⟩ := reads_of_list (w := w) n h (Nat.lt_succ_self _) f
  obtain ⟨-, -, rs, hrs, hnames⟩ := list_of_reads n hl
  refine ⟨{ f₁ with reductionCode := f₁.reductionCode.map wrapReduction }, rs, ?_, hrs, hnames⟩
  have hreduction : reduction f (scan (listText n ns ++ ';' :: w)) =
      some ({ f₁ with reductionCode := f₁.reductionCode.map wrapReduction }, scan (';' :: w)) := by
    unfold reduction
    split
    · rename_i s g us hts
      exact absurd hts (scan_list_ne n ns w)
    · rw [show assignementList f (scan (listText n ns ++ ';' :: w)) = some (f₁, scan (';' :: w)) from hl]
  rw [scan_reduction]
  show (reduction f _).bind _ = _
  rw [hreduction, scan_semicolon]
  rfl

/-- **A documented reduction is accepted and recorded exactly if every expression has a name, not `x`, and the scanner
finds its operands and operators.** -/
theorem recorded_iff (locationParse : Text → Option Nat) (f : Fields) (n : Named) (ns : List Named) (w : Text) :
    Recorded locationParse f n ns w ↔ ∀ m ∈ n :: ns, m.found = true :=
  ⟨found_of_recorded, fun h => recorded_of_found h locationParse f w⟩

/-- `$0+$1, $2*$3`, the list of the documentation, is not accepted: its expressions have no names. -/
theorem unnamed_list_rejected : ∃ n ns, listText n ns = "$0+$1, $2*$3".toList ∧
    ∀ locationParse f w, ¬ Recorded locationParse f n ns w := by
  refine ⟨⟨0, .none, .var ['0'] (by decide) (by decide), [⟨0, .add, 0, .var ['1'] (by decide) (by decide)⟩], 0⟩,
    [⟨1, .none, .var ['2'] (by decide) (by decide), [⟨0, .mul, 0, .var ['3'] (by decide) (by decide)⟩], 0⟩],
    rfl, fun locationParse f w h => ?_⟩
  have hfound := found_of_recorded h _ List.mem_cons_self
  cases hfound

end Hmon.Config
