import Hmon.Config.Lexemes
import Hmon.Config.Parser

/-!
# Literals in an expression

* `Literal` : a decimal integer or floating point literal, as C writes it;
* `Literal.scanned`, `Literal.whole`, `Literal.continues` : what the scanner makes of it;
* `Reads` : the parser gets through some tokens, inside no parenthesis;
* `scan_scanned`, `not_reads_unscanned`, `reads_joined` : a literal before anything that may stand behind an operand.
-/

namespace Hmon.Config
open Lib Lib.Regex

/-! ## Literals -/

/-- The exponent of a floating point literal. -/
structure Exponent where
  letter : Char
  sign : Option Char
  digits : Text
  isExp_letter : isExp letter = true
  isSign_sign : ∀ s ∈ sign, isSign s = true
  digits_ne : digits ≠ []
  digit_digits : ∀ c ∈ digits, digit c = true

def Exponent.text (x : Exponent) : Text := x.letter :: (x.sign.toList ++ x.digits)

/-- A decimal integer or floating point literal: digits, a point with digits, an exponent. -/
structure Literal where
  neg : Bool
  int : Text
  frac : Option Text
  exp : Option Exponent
  digit_int : ∀ c ∈ int, digit c = true
  digit_frac : ∀ fs ∈ frac, ∀ c ∈ fs, digit c = true
  digits_ne : int = [] → ∃ fs ∈ frac, fs ≠ []

namespace Literal

def sign (l : Literal) : Text := if l.neg then ['-'] else []

def fracText (l : Literal) : Text := l.frac.elim [] ('.' :: ·)

def expText (l : Literal) : Text := l.exp.elim [] Exponent.text

def text (l : Literal) : Text := l.sign ++ (l.int ++ (l.fracText ++ l.expText))

/-- No exponent, or one with a sign. -/
def signedExp (l : Literal) : Bool := l.exp.all fun x => x.sign.isSome

/-- The scanner takes the literal as one lexeme: it needs digits before the point, digits behind it, and a sign in the
exponent. -/
def scanned (l : Literal) : Bool := !l.int.isEmpty && l.frac != some [] && l.signedExp

/-- Digits and a point. -/
def whole (l : Literal) : Bool := !l.int.isEmpty && l.frac == some [] && l.exp.isNone

/-- What the scanner takes for a signed fraction behind such a literal. -/
def continues (l : Literal) : Bool := !l.neg && !l.int.isEmpty && l.frac.isNone && l.signedExp

end Literal

/-! ## What may stand behind an operand -/

/-- A space, an operator or a separator. -/
def follows (c : Char) : Bool := c == ' ' || associativeOp c || commutativeOp c || separator c

theorem follows_cases {c : Char} (h : follows c = true) :
    c = ' ' ∨ c = '+' ∨ c = '-' ∨ c = '*' ∨ c = '/' ∨ c = ',' ∨ c = ';' := by
  simpa [follows, associativeOp, commutativeOp, separator, or_assoc] using h

def Follows (R : Text) : Prop := ∀ c ∈ R.head?, follows c = true

section Follows
variable {R : Text}

theorem Follows.head (h : Follows R) {p : Char → Bool}
    (hp : ∀ c ∈ [' ', '+', '-', '*', '/', ',', ';'], p c = false) : Stops p R := by
  intro c hc
  apply hp
  simpa using follows_cases (h c hc)

theorem Follows.stops_digit (h : Follows R) : Stops digit R := h.head (by decide)

theorem Follows.noFraction (h : Follows R) : NoFraction R := by
  rintro t rfl
  exact absurd (h '.' rfl) (by decide)

theorem Follows.noExponent (h : Follows R) : NoExponent R := by
  rintro e t rfl he
  have hc := h.head (p := isExp) (by decide) e rfl
  rw [hc] at he
  cases he

end Follows

/-! ## Literals as lexemes -/

namespace Literal
variable {l : Literal} {R : Text}

theorem sign_cases (l : Literal) : l.sign = [] ∧ l.neg = false ∨ l.sign = ['-'] ∧ l.neg = true := by
  unfold sign
  cases l.neg
  · exact Or.inl ⟨rfl, rfl⟩
  · exact Or.inr ⟨rfl, rfl⟩

/-- The first character, where there are digits before the point. -/
theorem head_text (hne : l.int ≠ []) (Y : Text) :
    ∃ a, (l.sign ++ (l.int ++ Y)).head? = some a ∧ (digit a = true ∨ a = '-') := by
  rcases l.sign_cases with ⟨hs, -⟩ | ⟨hs, -⟩
  · cases hi : l.int with
    | nil => exact absurd hi hne
    | cons d ds =>
      refine ⟨d, by rw [hs]; rfl, Or.inl (l.digit_int d ?_)⟩
      rw [hi]
      exact List.mem_cons_self
  · exact ⟨'-', by rw [hs]; rfl, Or.inr rfl⟩

/-- How far the number rules match: sign, digits, and what the fraction and the exponent match behind them. -/
theorem longest_numbers (hne : l.int ≠ []) {Y : Text} {n : Nat} (hY : Stops digit Y)
    (hn : longest (seq fraction exponent) Y = some n) :
    longest integer (l.sign ++ (l.int ++ Y)) = some (l.sign.length + l.int.length) ∧
      longest real (l.sign ++ (l.int ++ Y)) = some (l.sign.length + l.int.length + n) := by
  rcases l.sign_cases with ⟨hs, -⟩ | ⟨hs, -⟩ <;> rw [hs]
  · rw [List.nil_append, longest_integer hne l.digit_int hY, longest_real hne l.digit_int hY hn]
    simp [Nat.add_comm]
  · show longest integer ('-' :: (l.int ++ Y)) = _ ∧ longest real ('-' :: (l.int ++ Y)) = _
    rw [longest_integer_neg hne l.digit_int hY, longest_real_neg hne l.digit_int hY hn]
    simp only [List.length_singleton, Option.some.injEq]
    omega

theorem sign_letterless (l : Literal) : ∀ c ∈ l.sign ++ l.int, nameClass c = true ∧ alpha c = false := by
  intro c hc
  rcases List.mem_append.mp hc with hc | hc
  · rcases l.sign_cases with ⟨hs, -⟩ | ⟨hs, -⟩ <;> rw [hs] at hc
    · cases hc
    · rw [List.mem_singleton.mp hc]
      decide
  · have hd := l.digit_int c hc
    exact ⟨digit_nameClass hd, digit_not_alpha hd⟩

/-- No name starts at a sign and digits before other characters. -/
theorem no_name {Y : Text} (hY : Stops nameClass Y) {u v : Text} (he : l.sign ++ (l.int ++ Y) = u ++ v) :
    u ∉ name.lang := by
  rw [← List.append_assoc] at he
  have hnone := longest_name_none (fun c hc => (l.sign_letterless c hc).1) (fun c hc => (l.sign_letterless c hc).2) hY
  exact longest_eq_none_iff.mp hnone u v he

/-- A number of which the fraction and the exponent match `Y`, where no name is as long. -/
theorem scan_of_longest (hne : l.int ≠ []) {Y R : Text} (hY : Stops digit (Y ++ R))
    (hn : longest (seq fraction exponent) (Y ++ R) = some Y.length)
    (hname : ∀ u v, l.sign ++ (l.int ++ (Y ++ R)) = u ++ v → u ∈ name.lang →
      u.length < (l.sign ++ (l.int ++ Y)).length) :
    ∃ t x, termText t = some x ∧ scan (l.sign ++ (l.int ++ (Y ++ R))) = t :: scan R := by
  obtain ⟨a, hhead, ha⟩ := head_text hne Y
  obtain ⟨hi, hr⟩ := longest_numbers hne hY hn
  have hassoc : l.sign ++ (l.int ++ (Y ++ R)) = l.sign ++ (l.int ++ Y) ++ R := by simp
  have hlen : l.sign.length + l.int.length + Y.length = (l.sign ++ (l.int ++ Y)).length := by simp [Nat.add_assoc]
  rw [hassoc] at hi hr hname ⊢
  rw [hlen] at hr
  have hscan := scan_number ha hhead hi (by omega) hr hname
  refine ⟨_, l.sign ++ (l.int ++ Y), ?_, hscan⟩
  unfold numberToken
  split_ifs <;> rfl

/-- A name that is at least as long as the number. -/
theorem scan_of_name (hne : l.int ≠ []) {Y u v : Text} {n : Nat} (hY : Stops digit Y)
    (hn : longest (seq fraction exponent) Y = some n) (hu : u ∈ name.lang) (he : l.sign ++ (l.int ++ Y) = u ++ v)
    (hlen : l.sign.length + l.int.length + n ≤ u.length) : ∃ s ts, scan (l.sign ++ (l.int ++ Y)) = .name s :: ts := by
  obtain ⟨a, hhead, ha⟩ := head_text hne Y
  obtain ⟨hi, hr⟩ := longest_numbers hne hY hn
  have hpos : 1 ≤ l.int.length := List.length_pos_iff.mpr hne
  cases hw : l.sign ++ (l.int ++ Y) with
  | nil => rw [hw] at hhead; cases hhead
  | cons b w =>
    rw [hw] at hhead hi hr he
    cases hhead
    cases hm : longest name (a :: w) with
    | none => exact absurd hu (longest_eq_none_iff.mp hm u v he)
    | some m =>
      obtain ⟨-, -, -, -, -, hmax⟩ := longest_eq_some_iff.mp hm
      have := hmax u v he hu
      exact scan_name_number ha hi hr (by omega) (by omega) hm (by omega)

theorem isExp_cases {c : Char} (h : isExp c = true) : c = 'e' ∨ c = 'E' := by simpa [isExp] using h

/-- The exponent starts with a letter, if there is one. -/
theorem head_expText (hR : Follows R) {p : Char → Bool}
    (hp : ∀ c ∈ ['e', 'E', ' ', '+', '-', '*', '/', ',', ';'], p c = false) : Stops p (l.expText ++ R) := by
  unfold expText
  cases l.exp with
  | none => exact hR.head fun c hc => hp c (by simp at hc ⊢; tauto)
  | some x =>
    intro c hc
    have hc : x.letter = c := Option.some.inj hc
    subst hc
    rcases isExp_cases x.isExp_letter with h | h <;> rw [h] <;> exact hp _ (by simp)

theorem noFraction_expText (hR : Follows R) : NoFraction (l.expText ++ R) := by
  intro t ht
  have := head_expText (l := l) hR (p := (· == '.')) (by decide) '.' (by rw [ht]; rfl)
  cases this

theorem longest_expText (h : l.signedExp = true) (hR : Follows R) :
    longest exponent (l.expText ++ R) = some l.expText.length := by
  unfold signedExp at h
  unfold expText
  cases hx : l.exp with
  | none => exact longest_exponent_none hR.noExponent
  | some x =>
    rw [hx] at h
    obtain ⟨s, hs⟩ := Option.isSome_iff_exists.mp (show x.sign.isSome = true from h)
    simp only [Option.elim_some, Exponent.text, hs, Option.toList_some, List.nil_append, List.cons_append]
    rw [longest_exponent x.isExp_letter (x.isSign_sign s hs) x.digits_ne x.digit_digits hR.stops_digit]
    rfl

/-- A `scanned` literal is matched to its end. -/
theorem longest_scanned (h : l.scanned = true) (hR : Follows R) :
    longest (seq fraction exponent) (l.fracText ++ l.expText ++ R) = some (l.fracText ++ l.expText).length ∧
      Stops digit (l.fracText ++ l.expText ++ R) := by
  unfold scanned at h
  rw [Bool.and_eq_true, Bool.and_eq_true, bne_iff_ne] at h
  obtain ⟨⟨-, hfrac⟩, hexp⟩ := h
  unfold fracText
  cases hf : l.frac with
  | none =>
    refine ⟨?_, head_expText hR (by decide)⟩
    show longest _ (l.expText ++ R) = some l.expText.length
    rw [longest_fraction_none (noFraction_expText hR), longest_expText hexp hR]
  | some fs =>
    refine ⟨?_, fun c hc => by cases hc; rfl⟩
    have hne : fs ≠ [] := by rintro rfl; exact hfrac hf
    show longest _ ('.' :: (fs ++ l.expText ++ R)) = some ('.' :: (fs ++ l.expText)).length
    rw [List.append_assoc, longest_fraction hne (l.digit_frac fs hf) (head_expText hR (by decide))
      (longest_expText hexp hR)]
    simp [Nat.add_comm]

/-- No letter behind: the run of the name class that `R` starts with has none. -/
def Letterless (R : Text) : Prop :=
  ∃ B T, R = B ++ T ∧ (∀ c ∈ B, nameClass c = true) ∧ (∀ c ∈ B, alpha c = false) ∧ Stops nameClass T

theorem int_ne (h : l.scanned = true) : l.int ≠ [] := by
  unfold scanned at h
  rw [Bool.and_eq_true, Bool.and_eq_true] at h
  simpa using h.1.1

theorem last_text (h : l.scanned = true) : ∀ c ∈ l.text.getLast?, digit c = true := by
  unfold scanned at h
  rw [Bool.and_eq_true, Bool.and_eq_true, bne_iff_ne] at h
  obtain ⟨⟨hint, hfrac⟩, -⟩ := h
  have hlast : ∀ {A D : Text}, D ≠ [] → (∀ c ∈ D, digit c = true) → ∀ c ∈ (A ++ D).getLast?, digit c = true := by
    intro A D hne hD c hc
    rw [List.getLast?_append_of_ne_nil _ hne] at hc
    exact hD c (List.mem_of_getLast? hc)
  unfold text fracText expText
  cases hx : l.exp with
  | some x =>
    have := hlast (A := l.sign ++ (l.int ++ (l.frac.elim [] ('.' :: ·) ++ x.letter :: x.sign.toList))) x.digits_ne
      x.digit_digits
    simpa [Exponent.text] using this
  | none =>
    cases hf : l.frac with
    | some fs =>
      have hne : fs ≠ [] := by rintro rfl; exact hfrac hf
      have := hlast (A := l.sign ++ (l.int ++ ['.'])) hne (l.digit_frac fs hf)
      simpa using this
    | none =>
      have hne : l.int ≠ [] := by simpa using hint
      simpa using hlast (A := l.sign) hne l.digit_int

/-- **A `scanned` literal is one token**, or the beginning of a name that goes beyond it. -/
theorem scan_scanned (h : l.scanned = true) (hR : Follows R) :
    (∃ t x, termText t = some x ∧ scan (l.text ++ R) = t :: scan R) ∨
      ¬ Letterless R ∧ ∃ s ts, scan (l.text ++ R) = .name s :: ts := by
  obtain ⟨hn, hY⟩ := longest_scanned h hR
  have hassoc : l.text ++ R = l.sign ++ (l.int ++ (l.fracText ++ l.expText ++ R)) := by simp [text]
  by_cases hname : ∀ u v, l.text ++ R = u ++ v → u ∈ name.lang → u.length < l.text.length
  · rw [hassoc] at hname ⊢
    exact Or.inl (scan_of_longest (int_ne h) hY hn hname)
  · simp only [not_forall, not_lt] at hname
    obtain ⟨u, v, he, hu, hlen⟩ := hname
    refine Or.inr ⟨?_, ?_⟩
    · rintro ⟨B, T, rfl, hB, hletters, hT⟩
      obtain ⟨a, hhead, ha⟩ := head_text (int_ne h) (l.fracText ++ l.expText)
      refine absurd (name_lt ?_ ?_ ?_ hB hletters hT he hu) (not_lt.mpr hlen)
      · rintro hnil
        rw [show l.sign ++ (l.int ++ (l.fracText ++ l.expText)) = l.text from rfl, hnil] at hhead
        cases hhead
      · intro c hc
        rw [show l.text.head? = some a from hhead] at hc
        cases hc
        rcases ha with ha | rfl
        · exact digit_not_alpha ha
        · rfl
      · exact fun c hc => digit_not_alpha (last_text h c hc)
    · rw [hassoc] at he ⊢
      have hlen' : l.sign.length + l.int.length + (l.fracText ++ l.expText).length ≤ u.length := by
        simpa [text, Nat.add_assoc] using hlen
      exact scan_of_name (int_ne h) hY hn hu he hlen'

end Literal

/-! ## One step of the parser -/

/-- Inside no parenthesis, with or without an operand read, the parser gets to `rest`. -/
def Reads (k : TermCtx) (o : Option Text) (ts rest : List Token) : Prop := ∃ x, commExpr [] k o ts = some (x, rest)

section Reads
variable {k : TermCtx} {y : Text} {t : Token} {ts rest : List Token} {c : Char}

theorem reads_term {x : Text} (h : termText t = some x) :
    Reads k .none (t :: ts) rest ↔ Reads k (some x) ts rest := by
  unfold Reads
  rw [commExpr_term h]

theorem not_reads_term (h : termText t = .none) (hparen : t ≠ .char '(') : ¬ Reads k .none (t :: ts) rest := by
  rintro ⟨x, hx⟩
  simp only [commExpr, h, if_neg hparen] at hx
  cases hx

theorem not_reads_op (h : ∀ c, t ≠ .char c) : ¬ Reads k (some y) (t :: ts) rest := by
  rintro ⟨x, hx⟩
  cases t with
  | char c => exact h c rfl
  | _ => cases hx

theorem not_reads_dot : ¬ Reads k (some y) (.char '.' :: ts) rest := by
  rintro ⟨x, hx⟩
  cases hx

theorem separator_cases (h : separator c = true) : c = ',' ∨ c = ';' := by simpa [separator] using h

theorem reads_separator (h : separator c = true) :
    Reads k (some y) (.char c :: ts) rest ↔ rest = .char c :: ts := by
  have hread : commExpr [] k (some y) (.char c :: ts) = some (k.reduce y, .char c :: ts) := by
    rcases separator_cases h with rfl | rfl <;> rfl
  unfold Reads
  rw [hread]
  constructor
  · rintro ⟨x, hx⟩
    exact (Prod.mk.inj (Option.some.inj hx)).2.symm
  · rintro rfl
    exact ⟨_, rfl⟩

end Reads

/-! ## Literals that are not one lexeme -/

theorem scan_letter {e d : Char} {w : Text} (he : isExp e = true) (hd : nameClass d = true) :
    ∃ t ts, scan (e :: d :: w) = t :: ts ∧ ∀ c, t ≠ .char c := by
  have halpha : alpha e = true := by rcases Literal.isExp_cases he with rfl | rfl <;> rfl
  have hmem : [e, d] ∈ name.lang := mem_name.mpr (Or.inl ⟨e, [d], rfl, halpha, by simpa using hd⟩)
  have hrule : nameRule ∈ rules := by simp [rules]
  have hne : e ≠ 'x' ∧ e ≠ '%' := by rcases Literal.isExp_cases he with rfl | rfl <;> decide
  exact scan_long (n := 2) hne.1 hne.2 hrule ⟨by simp, hmem⟩ le_rfl

namespace Literal
variable {l : Literal} {R : Text} {k : TermCtx} {y : Text} {rest : List Token}

theorem unsigned_exponent (h : l.signedExp = false) : ∃ x, l.exp = some x ∧ l.expText = x.letter :: x.digits := by
  unfold signedExp at h
  cases hx : l.exp with
  | none => rw [hx] at h; cases h
  | some x =>
    rw [hx] at h
    have hsign : x.sign = .none := Option.isNone_iff_eq_none.mp (Option.isSome_eq_false_iff.mp h)
    exact ⟨x, rfl, by simp [expText, hx, Exponent.text, hsign]⟩

theorem digits_cons (x : Exponent) : ∃ d ds, x.digits = d :: ds ∧ digit d = true := by
  cases hd : x.digits with
  | nil => exact absurd hd x.digits_ne
  | cons d ds => exact ⟨d, ds, rfl, x.digit_digits d (by rw [hd]; exact List.mem_cons_self)⟩

/-- Behind an exponent without sign, the letter starts a name. -/
theorem not_reads_unsigned (h : l.signedExp = false) : ¬ Reads k (some y) (scan (l.expText ++ R)) rest := by
  obtain ⟨x, -, htext⟩ := unsigned_exponent h
  obtain ⟨d, ds, hd, hdigit⟩ := digits_cons x
  obtain ⟨t, ts, hscan, ht⟩ := scan_letter (w := ds ++ R) x.isExp_letter (digit_nameClass hdigit)
  rw [htext, hd, List.cons_append, List.cons_append, hscan]
  exact not_reads_op ht

theorem longest_unsigned (h : l.signedExp = false) : longest exponent (l.expText ++ R) = some 0 := by
  obtain ⟨x, -, htext⟩ := unsigned_exponent h
  obtain ⟨d, ds, hd, hdigit⟩ := digits_cons x
  refine longest_exponent_none fun e t he _ c hc => ?_
  rw [htext, hd] at he
  obtain ⟨-, rfl⟩ := List.cons.inj he
  cases hc
  exact (by decide : ∀ c ∈ ['0', '1', '2', '3', '4', '5', '6', '7', '8', '9'], isSign c = false) d (digit_cases hdigit)

/-- There are no digits before the point. -/
theorem not_reads_noInt (h : l.int = []) : ¬ Reads k .none (scan (l.text ++ R)) rest := by
  obtain ⟨fs, hf, -⟩ := l.digits_ne h
  have hfrac : l.fracText = '.' :: fs := by unfold fracText; rw [hf]; rfl
  unfold text
  rw [h, hfrac]
  rcases l.sign_cases with ⟨hs, -⟩ | ⟨hs, -⟩ <;> rw [hs]
  · show ¬ Reads k .none (scan ('.' :: (fs ++ l.expText ++ R))) rest
    rw [scan_dot]
    exact not_reads_term rfl (by decide)
  · show ¬ Reads k .none (scan ('-' :: ('.' :: (fs ++ l.expText ++ R)))) rest
    rw [scan_minus fun c hc => by cases hc; rfl]
    exact not_reads_term rfl (by decide)

/-- The digits before a point are an integer where no fraction follows; the point is no operator. -/
theorem not_reads_point (hne : l.int ≠ []) (hR : NoInteger R) :
    ¬ Reads k .none (scan (l.sign ++ (l.int ++ '.' :: R))) rest := by
  have hdot : Stops nameClass ('.' :: R) := fun c hc => by cases hc; rfl
  have hlongest : longest (seq fraction exponent) ('.' :: R) = some 0 := by
    rw [longest_fraction_none fun t ht => (List.cons.inj ht).2 ▸ hR, exponent_dot]
  obtain ⟨t, x, ht, hscan⟩ := scan_of_longest hne (Y := []) (fun c hc => by cases hc; rfl) hlongest
    fun u v he hu => absurd hu (no_name hdot he)
  rw [List.nil_append] at hscan
  rw [hscan, scan_dot, reads_term ht]
  exact Config.not_reads_dot

theorem noInteger_of_expText {x : Exponent} (hx : l.exp = some x) (hR : Follows R) : NoInteger (l.expText ++ R) := by
  refine ⟨head_expText hR (by decide), fun t ht => ?_⟩
  unfold expText at ht
  rw [hx] at ht
  obtain ⟨hletter, -⟩ := List.cons.inj ht
  have := x.isExp_letter
  rw [hletter] at this
  cases this

/-- A literal that is not one lexeme, and does not end in its point, is not read. -/
theorem not_reads_unscanned (hs : l.scanned = false) (hw : l.whole = false) (hR : Follows R) :
    ¬ Reads k .none (scan (l.text ++ R)) rest := by
  by_cases hne : l.int = []
  · exact not_reads_noInt hne
  have hint : l.int.isEmpty = false := by simpa using hne
  have hassoc : l.text ++ R = l.sign ++ (l.int ++ (l.fracText ++ (l.expText ++ R))) := by simp [text]
  rw [hassoc]
  unfold fracText
  cases hf : l.frac with
  | none =>
    -- the exponent has no sign, and a name goes up to its letter
    have hexp : l.signedExp = false := by simpa [scanned, hint, hf] using hs
    obtain ⟨x, -, htext⟩ := unsigned_exponent hexp
    have hlongest : longest (seq fraction exponent) (l.expText ++ R) = some 0 := by
      rw [longest_fraction_none (noFraction_expText hR), longest_unsigned hexp]
    have halpha : alpha x.letter = true := by rcases isExp_cases x.isExp_letter with h | h <;> rw [h] <;> rfl
    have hmem : l.sign ++ l.int ++ [x.letter] ∈ name.lang :=
      mem_name.mpr (Or.inr ⟨_, x.letter, rfl, halpha, fun c hc => (l.sign_letterless c hc).1⟩)
    have hprefix : l.sign ++ (l.int ++ (l.expText ++ R)) = l.sign ++ l.int ++ [x.letter] ++ (x.digits ++ R) := by
      rw [htext]
      simp
    obtain ⟨s, ts, hscan⟩ := scan_of_name hne (head_expText hR (by decide)) hlongest hmem hprefix (by simp)
    show ¬ Reads k .none (scan (l.sign ++ (l.int ++ (l.expText ++ R)))) rest
    rw [hscan]
    exact not_reads_term rfl Token.noConfusion
  | some fs =>
    show ¬ Reads k .none (scan (l.sign ++ (l.int ++ '.' :: (fs ++ (l.expText ++ R))))) rest
    by_cases hfs : fs = []
    · subst hfs
      obtain ⟨x, hx⟩ : ∃ x, l.exp = some x := by
        cases hx : l.exp with
        | none => simp [whole, hint, hf, hx] at hw
        | some x => exact ⟨x, rfl⟩
      exact not_reads_point hne (noInteger_of_expText hx hR)
    · have hexp : l.signedExp = false := by simpa [scanned, hint, hf, hfs] using hs
      have hlongest := longest_fraction hfs (l.digit_frac fs hf) (head_expText (l := l) hR (by decide))
        (longest_unsigned (R := R) hexp)
      have hdot : Stops nameClass ('.' :: fs ++ (l.expText ++ R)) := fun c hc => by cases hc; rfl
      obtain ⟨t, x, ht, hscan⟩ := scan_of_longest hne (Y := '.' :: fs) (fun c hc => by cases hc; rfl)
        (by simpa using hlongest) fun u v he hu => absurd hu (no_name hdot he)
      have hscan' : scan (l.sign ++ (l.int ++ '.' :: (fs ++ (l.expText ++ R)))) = t :: scan (l.expText ++ R) := hscan
      rw [hscan', reads_term ht]
      exact not_reads_unsigned hexp

/-- Digits and a point, directly before a minus sign and a literal without sign: one real, if the literal has no
point. -/
theorem reads_joined {m : Literal} (hl : l.whole = true) (hneg : m.neg = false) (hint : m.int ≠ []) (hR : Follows R)
    (k : TermCtx) : ∃ y, ∀ rest, Reads k .none (scan (l.text ++ '-' :: (m.text ++ R))) rest ↔
      m.continues = true ∧ Reads k (some y) (scan R) rest := by
  unfold whole at hl
  rw [Bool.and_eq_true, Bool.and_eq_true, beq_iff_eq, Option.isNone_iff_eq_none] at hl
  obtain ⟨⟨hne, hf⟩, hx⟩ := hl
  have hne : l.int ≠ [] := by simpa using hne
  have hsign : m.sign = [] := by unfold sign; rw [hneg]; rfl
  have hmint : m.int.isEmpty = false := by simpa using hint
  -- the real up to `Y`
  have hreal : ∀ X Z : Text,
      longest (seq fraction exponent) ('.' :: '-' :: (m.int ++ (X ++ Z))) = some (X.length + m.int.length + 2) →
      ∃ t y, termText t = some y ∧ scan (l.sign ++ (l.int ++ '.' :: '-' :: (m.int ++ (X ++ Z)))) = t :: scan Z := by
    intro X Z h
    have hdot : Stops nameClass ('.' :: '-' :: (m.int ++ X) ++ Z) := fun c hc => by cases hc; rfl
    obtain ⟨t, y, ht, hscan⟩ := scan_of_longest hne (Y := '.' :: '-' :: (m.int ++ X)) (R := Z)
      (fun c hc => by cases hc; rfl) (by simpa [Nat.add_comm, Nat.add_left_comm] using h)
      fun u v he hu => absurd hu (no_name hdot he)
    exact ⟨t, y, ht, by simpa using hscan⟩
  have htext : l.text ++ '-' :: (m.text ++ R) =
      l.sign ++ (l.int ++ '.' :: '-' :: (m.int ++ (m.fracText ++ (m.expText ++ R)))) := by
    simp [text, fracText, expText, hf, hx, hsign]
  rw [htext]
  unfold fracText
  cases hmf : m.frac with
  | none =>
    cases hexp : m.signedExp with
    | true =>
      obtain ⟨t, y, ht, hscan⟩ := hreal m.expText R
        (longest_fraction_neg hint m.digit_int (head_expText hR (by decide)) (longest_expText hexp hR))
      refine ⟨y, fun rest => ?_⟩
      have hcont : m.continues = true := by simp [continues, hneg, hmint, hmf, hexp]
      show Reads k .none (scan (l.sign ++ (l.int ++ '.' :: '-' :: (m.int ++ (m.expText ++ R))))) rest ↔ _
      rw [hscan, reads_term ht, and_iff_right hcont]
    | false =>
      obtain ⟨t, y, ht, hscan⟩ := hreal [] (m.expText ++ R)
        (by simpa using longest_fraction_neg hint m.digit_int (head_expText hR (by decide)) (longest_unsigned hexp))
      refine ⟨y, fun rest => ?_⟩
      have hcont : m.continues = false := by simp [continues, hexp]
      have hscan' : scan (l.sign ++ (l.int ++ '.' :: '-' :: (m.int ++ (m.expText ++ R)))) =
          t :: scan (m.expText ++ R) := hscan
      show Reads k .none (scan (l.sign ++ (l.int ++ '.' :: '-' :: (m.int ++ (m.expText ++ R))))) rest ↔ _
      rw [hscan', reads_term ht, hcont]
      exact iff_of_false (not_reads_unsigned hexp) fun h => Bool.false_ne_true h.1
  | some fs =>
    obtain ⟨t, y, ht, hscan⟩ := hreal [] ('.' :: (fs ++ (m.expText ++ R)))
      (by simpa using longest_fraction_neg hint m.digit_int (fun c hc => by cases hc; rfl) (exponent_dot _))
    refine ⟨y, fun rest => ?_⟩
    have hcont : m.continues = false := by simp [continues, hmf]
    have hscan' : scan (l.sign ++ (l.int ++ '.' :: '-' :: (m.int ++ '.' :: (fs ++ (m.expText ++ R))))) =
        t :: scan ('.' :: (fs ++ (m.expText ++ R))) := hscan
    show Reads k .none (scan (l.sign ++ (l.int ++ '.' :: '-' :: (m.int ++ '.' :: (fs ++ (m.expText ++ R)))))) rest ↔ _
    rw [hscan', reads_term ht, hcont, scan_dot]
    exact iff_of_false Config.not_reads_dot fun h => Bool.false_ne_true h.1

end Literal

end Hmon.Config
