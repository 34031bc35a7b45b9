import Hmon.Config.Lexemes
import Hmon.Config.Parser
import Hmon.Lib.Precedence
import Mathlib.Algebra.Field.Rat
import Mathlib.Data.List.Chain

/-!
# The generated file, as a C compiler reads it

* `clex` : the tokens of C, by maximal munch;
* `integerValue`, `decimalConstant`, `cConstant` : the values of numbers;
* `CNum` : `int`, `long` and `double`; `numArith` : the operators with the usual arithmetic conversions;
* `csymbols` : an expression of the generated function as operands and operators;
* `run` : the samples after a call of the function, `none` if the file is not well formed or the call has no defined
  behaviour.
-/

namespace Hmon.Config
open Lib Lib.Regex Lib.Precedence

/-! ## Tokens -/

inductive CTok
  | ident (s : Text)
  | number (s : Text)
  | punct (p : String)
  | other (s : Text)
  deriving DecidableEq, Repr

def isLetter (c : Char) : Bool := c.isAlpha || c == '_'

def identChar (c : Char) : Bool := isLetter c || digit c

def identifier : Regex Char := seq (cls isLetter) (star (cls identChar))

/-- A number of the preprocessor. -/
def ppNumber : Regex Char :=
  seq (opt (chr '.')) (seq (cls digit)
    (star (alt (seq (cls fun c => isExp c || c == 'p' || c == 'P') (cls isSign))
      (cls fun c => identChar c || c == '.'))))

def blockComment : Regex Char :=
  seq (lit "/*".toList) (seq (star (alt (cls fun c => c != '*')
    (seq (plus (chr '*')) (cls fun c => c != '*' && c != '/')))) (seq (plus (chr '*')) (chr '/')))

def lineComment : Regex Char := seq (lit "//".toList) (star (cls fun c => c != '\n'))

def isSpace (c : Char) : Bool := c == ' ' || c == '\n' || c == '\t' || c == '\x0b' || c == '\x0c' || c == '\x0d'

def punctuators : List String :=
  ["[", "]", "(", ")", "\x7b", "\x7d", ".", "->", "++", "--", "&", "*", "+", "-", "~", "!", "/", "%", "<<", ">>", "<",
    ">", "<=", ">=", "==", "!=", "^", "|", "&&", "||", "?", ":", ";", "...", "=", "*=", "/=", "%=", "+=", "-=", "<<=",
    ">>=", "&=", "^=", "|=", ",", "#", "##", "<:", ":>", "<%", "%>", "%:", "%:%:"]

def punctRule (p : String) : Rule Char CTok := ⟨lit p.toList, fun _ => some (.punct p)⟩

def spaceRule : Rule Char CTok := ⟨cls isSpace, fun _ => .none⟩

def identRule : Rule Char CTok := ⟨identifier, fun s => some (.ident s)⟩

def numberRule : Rule Char CTok := ⟨ppNumber, fun s => some (.number s)⟩

/-- A character that starts no other token. -/
def otherRule : Rule Char CTok := ⟨cls fun _ => true, fun s => some (.other s)⟩

def crules : List (Rule Char CTok) :=
  [spaceRule, ⟨blockComment, fun _ => .none⟩, ⟨lineComment, fun _ => .none⟩, identRule, numberRule] ++
    punctuators.map punctRule ++ [otherRule]

def clex (s : Text) : List CTok := Lexer.scan crules s

/-! ## Numbers -/

/-- A value of type `int`, `long` or `double`, which is a `D`. -/
inductive CNum (D : Type)
  | int (n : Int)
  | long (n : Int)
  | double (x : D)
  deriving DecidableEq

variable {D : Type}

def fitsInt (n : Int) : Bool := -2147483648 ≤ n && n ≤ 2147483647

def fitsLong (n : Int) : Bool := -9223372036854775808 ≤ n && n ≤ 9223372036854775807

def octalValue (ds : Text) : Nat := ds.foldl (fun n c => 8 * n + (c.toNat - '0'.toNat)) 0

/-- The first type that has the value. The unsigned types of large octal constants are left out. -/
def intOrLong (n : Int) : Option (CNum D) :=
  if fitsInt n then some (.int n) else if fitsLong n then some (.long n) else none

/-- The value of a constant of digits: octal behind a zero. -/
def integerValue (ds : Text) : Option Nat :=
  if ds.head? = some '0' then
    if ds.all fun c => c != '8' && c != '9' then some (octalValue ds) else none
  else some (digitsValue ds)

def integerConstant (ds : Text) : Option (CNum D) := (integerValue ds).bind fun n => intOrLong n

/-- The rational with the digits `ds` and `n` of them behind the point. -/
def scaled (ds : Text) (n : Nat) : ℚ := (digitsValue ds : ℚ) / (Nat.pow 10 n : ℚ)

/-- The exponent of a decimal constant. -/
def applyExponent (x : ℚ) : Text → Option ℚ
  | [] => some x
  | e :: s =>
    if isExp e then
      match s with
      | '-' :: ds => if ds ≠ [] ∧ ds.all digit then some (x / (Nat.pow 10 (digitsValue ds) : ℚ)) else none
      | '+' :: ds => if ds ≠ [] ∧ ds.all digit then some (x * (Nat.pow 10 (digitsValue ds) : ℚ)) else none
      | ds => if ds ≠ [] ∧ ds.all digit then some (x * (Nat.pow 10 (digitsValue ds) : ℚ)) else none
    else none

/-- The value of a decimal number without sign: digits with an optional point and an optional exponent. -/
def decimalConstant (s : Text) : Option ℚ :=
  let int := s.takeWhile digit
  match s.dropWhile digit with
  | '.' :: s =>
    let frac := s.takeWhile digit
    if int = [] ∧ frac = [] then none else applyExponent (scaled (int ++ frac) frac.length) (s.dropWhile digit)
  | s => if int = [] then none else applyExponent (scaled int 0) s

/-- The constant that a preprocessing number is. -/
def cConstant (s : Text) : Option (CNum (Option ℚ)) :=
  if s.all digit then integerConstant s else (decimalConstant s).map fun q => .double (some q)

/-! ## Arithmetic -/

/-- The operations on the rationals. -/
def ratArith : Arith ℚ where
  neg x := some (-x)
  op
    | .add, x, y => some (x + y)
    | .sub, x, y => some (x - y)
    | .mul, x, y => some (x * y)
    | .div, x, y => if y = 0 then none else some (x / y)

/-- What the operators need of a type `D` for `double`. -/
structure DoubleOps (D : Type) where
  ofInt : Int → D
  neg : D → D
  op : Precedence.Op → D → D → D

/-- `double`, taken as a rational. The quotient by zero is none, and nothing computed from it is. -/
def rationals : DoubleOps (Option ℚ) where
  ofInt n := some n
  neg x := x.map fun q => -q
  op o x y := x.bind fun a => y.bind (ratArith.op o a)

/-- The operators on integers; the quotient is truncated. -/
def integerOp : Precedence.Op → Int → Int → Option Int
  | .add, x, y => some (x + y)
  | .sub, x, y => some (x - y)
  | .mul, x, y => some (x * y)
  | .div, x, y => if y = 0 then none else some (x.tdiv y)

namespace CNum

/-- The value, as a `double`. -/
def toDouble (d : DoubleOps D) : CNum D → D
  | int n => d.ofInt n
  | long n => d.ofInt n
  | double x => x

/-- The value of an integer. -/
def integer : CNum D → Option Int
  | int n => some n
  | long n => some n
  | double _ => none

def ofInt (n : Int) : Option (CNum D) := if fitsInt n then some (.int n) else none

def ofLong (n : Int) : Option (CNum D) := if fitsLong n then some (.long n) else none

end CNum

/-- The operators with the usual arithmetic conversions. A result outside the type is not defined. `intOp` are the
operators on two integers. -/
def numArith (d : DoubleOps D) (intOp : Precedence.Op → Int → Int → Option Int) : Arith (CNum D) where
  neg
    | .int n => CNum.ofInt (-n)
    | .long n => CNum.ofLong (-n)
    | .double x => some (.double (d.neg x))
  op o
    | .int a, .int b => (intOp o a b).bind CNum.ofInt
    | .int a, .long b => (intOp o a b).bind CNum.ofLong
    | .long a, .int b => (intOp o a b).bind CNum.ofLong
    | .long a, .long b => (intOp o a b).bind CNum.ofLong
    | x, y => some (.double (d.op o (x.toDouble d) (y.toDouble d)))

def cArith : Arith (CNum (Option ℚ)) := numArith rationals integerOp

/-! ## Expressions -/

/-- What an expression is about: its constants, and the elements of `events`. -/
structure Reading (V : Type) where
  constant : Text → Option V
  event : Int → V

variable {V : Type}

def punctSymbol (p : String) : Option (Symbol V) :=
  if p = "(" then some .left
  else if p = ")" then some .right
  else if p = "+" then some (.op .add)
  else if p = "-" then some (.op .sub)
  else if p = "*" then some (.op .mul)
  else if p = "/" then some (.op .div)
  else none

/-- The integer constant of a subscript. -/
def subscript (k : Text) : Option Int := (cConstant k).bind CNum.integer

/-- The expressions of the generated function: constants, elements of `events`, operators and parentheses. -/
def csymbols (r : Reading V) : List CTok → Option (List (Symbol V))
  | [] => some []
  | .number s :: ts => (r.constant s).bind fun v => (csymbols r ts).map (.operand v :: ·)
  | .punct p :: ts => (punctSymbol p).bind fun s => (csymbols r ts).map (s :: ·)
  | .ident s :: .punct "[" :: .number k :: .punct "]" :: ts =>
    if s = "events".toList then (subscript k).bind fun n => (csymbols r ts).map (.operand (r.event n) :: ·) else none
  | .ident s :: .punct "[" :: .punct "-" :: .number k :: .punct "]" :: ts =>
    if s = "events".toList then (subscript k).bind fun n => (csymbols r ts).map (.operand (r.event (-n)) :: ·) else none
  | _ :: _ => none

/-! ## The function -/

def keywords : List String :=
  ["auto", "break", "case", "char", "const", "continue", "default", "do", "double", "else", "enum", "extern", "float",
    "for", "goto", "if", "inline", "int", "long", "register", "restrict", "return", "short", "signed", "sizeof",
    "static", "struct", "switch", "typedef", "union", "unsigned", "void", "volatile", "while", "_Alignas", "_Alignof",
    "_Atomic", "_Bool", "_Complex", "_Generic", "_Imaginary", "_Noreturn", "_Static_assert", "_Thread_local"]

def word (s : String) : CTok := .ident s.toList

/-- `void id(hmon m){ double * events = hmonitor_get_events(m, m->last);` -/
def prologue (id : Text) : List CTok :=
  [word "void", .ident id, .punct "(", word "hmon", word "m", .punct ")", .punct "\x7b", word "double", .punct "*",
    word "events", .punct "=", word "hmonitor_get_events", .punct "(", word "m", .punct ",", word "m", .punct "->",
    word "last", .punct ")", .punct ";"]

/-- The statements that end with a semicolon, and what stands behind them. -/
def statements : List CTok → List (List CTok) × List CTok
  | [] => ([], [])
  | t :: ts =>
    match statements ts with
    | (ss, rest) =>
      if t = .punct ";" then ([] :: ss, rest)
      else
        match ss with
        | [] => ([], t :: rest)
        | s :: ss => ((t :: s) :: ss, rest)

/-- `m->samples[k]=expression`: the sample, and what is stored in it. -/
def evalStatement (row : Int → ℚ) (ts : List CTok) : Option (Int × Option ℚ) :=
  match ts with
  | a :: b :: c :: d :: .number k :: e :: f :: ts =>
    if [a, b, c, d, e, f] = [word "m", .punct "->", word "samples", .punct "[", .punct "]", .punct "="] then
      (subscript k).bind fun n =>
        (csymbols ⟨cConstant, fun k => .double (some (row k))⟩ ts).bind fun ss =>
          (evaluate cArith ss).map fun v => (n, v.toDouble rationals)
    else none
  | _ => none

/-- A declared name is no name for the function, and a keyword is no name at all. -/
def functionBody (declared : Text → Bool) (ts : List CTok) : Option (List CTok) :=
  match ts with
  | _ :: .ident id :: _ =>
    if ts.take 20 = prologue id ∧ declared id = false ∧ id ∉ keywords.map String.toList then some (ts.drop 20) else none
  | _ => none

def store (samples : Int → Option ℚ) (p : Int × Option ℚ) : Int → Option ℚ :=
  fun i => if i = p.1 then p.2 else samples i

def headerLine : Text := "#include <hmon/hmonitor.h>\n".toList

/-- The samples after a call of the function of the file `s`, with `row` as `events` and `samples` as the samples
before. `declared` are the names that the included header declares. -/
def run (declared : Text → Bool) (s : Text) (row : Int → ℚ) (samples : Int → Option ℚ) : Option (Int → Option ℚ) :=
  if s.take headerLine.length = headerLine then
    (functionBody declared (clex (s.drop headerLine.length))).bind fun ts =>
      match statements ts with
      | (ss, [.punct "\x7d"]) =>
        (ss.mapM (evalStatement row)).map fun stores => stores.foldl store samples
      | _ => none
  else none

/-! ## Lexemes -/

section Lexemes
variable {a c : Char} {u v T : Text}

theorem clex_of_best {rs : List (Rule Char CTok)} {r : Rule Char CTok}
    (hrs : (crules.filter fun q => q.regex.first a) = rs) (ha : u.head? = some a)
    (h : Lexer.best (u ++ v) rs = some (u.length, r)) : clex (u ++ v) = (r.action u).toList ++ clex v := by
  cases u with
  | nil => cases ha
  | cons b u =>
    cases ha
    subst hrs
    have hscan := Lexer.scan_eq (Lexer.best_of_filter h)
    have htake : ((a :: u) ++ v).take (u.length + 1) = a :: u := by rw [← List.length_cons, List.take_left]
    have hdrop : ((a :: u) ++ v).drop (u.length + 1) = v := by rw [← List.length_cons, List.drop_left]
    exact hscan.trans (congrArg₂ (fun x y => (r.action x).toList ++ clex y) htake hdrop)

theorem longest_other (c : Char) (T : Text) : longest otherRule.regex (c :: T) = some 1 := by
  unfold otherRule
  rw [← longest_seq_eps, longest_seq_cls, if_pos rfl, longest_eps]
  rfl

theorem longest_lit_one (c : Char) (T : Text) : longest (lit [c]) (c :: T) = some 1 := by
  unfold lit
  rw [show lit ([] : Text) = eps from rfl, longest_seq_eps, longest_chr]

theorem longest_lit_two {d : Char} (h : T.head? ≠ some d) : longest (lit [c, d]) (c :: T) = .none := by
  refine longest_eq_none_iff.mpr fun u v he hu => ?_
  rw [mem_lit.mp hu] at he
  obtain ⟨-, rfl⟩ := List.cons.inj he
  exact h rfl

theorem clex_space (h : c = ' ' ∨ c = '\n') (T : Text) : clex (c :: T) = clex T := by
  have hrules : (crules.filter fun q => q.regex.first c) = [spaceRule, otherRule] := by
    rcases h with rfl | rfl <;> rfl
  have hspace : longest spaceRule.regex (c :: T) = some 1 := by
    unfold spaceRule
    rw [← longest_seq_eps, longest_seq_cls, if_pos (by rcases h with rfl | rfl <;> rfl), longest_eps]
    rfl
  have hbest : Lexer.best ([c] ++ T) [spaceRule, otherRule] = some (1, spaceRule) := by
    simp [Lexer.best, hspace, longest_other]
  exact clex_of_best hrules rfl hbest

/-- A character that starts one punctuator only. -/
theorem clex_single {p : String} (hp : p.toList = [c])
    (h : (crules.filter fun q => q.regex.first c) = [punctRule p, otherRule]) (T : Text) :
    clex (c :: T) = .punct p :: clex T := by
  have hpunct : longest (punctRule p).regex (c :: T) = some 1 := by
    unfold punctRule
    rw [hp, longest_lit_one]
  have hbest : Lexer.best ([c] ++ T) [punctRule p, otherRule] = some (1, punctRule p) := by
    simp [Lexer.best, hpunct, longest_other]
  exact clex_of_best h rfl hbest

theorem longest_punct_one {p : String} (hp : p.toList = [c]) (T : Text) :
    longest (punctRule p).regex (c :: T) = some 1 := by
  unfold punctRule
  rw [hp, longest_lit_one]

theorem longest_punct_two {p : String} {d : Char} (hp : p.toList = [c, d]) (h : T.head? ≠ some d) :
    longest (punctRule p).regex (c :: T) = .none := by
  unfold punctRule
  rw [hp, longest_lit_two h]

theorem clex_plus (h : T.head? ≠ some '+') (h' : T.head? ≠ some '=') : clex ('+' :: T) = .punct "+" :: clex T := by
  have hrules : (crules.filter fun q => q.regex.first '+') =
      [punctRule "++", punctRule "+", punctRule "+=", otherRule] :=
    rfl
  have h₁ : longest (punctRule "++").regex ('+' :: T) = .none := longest_punct_two rfl h
  have h₂ : longest (punctRule "+").regex ('+' :: T) = some 1 := longest_punct_one rfl T
  have h₃ : longest (punctRule "+=").regex ('+' :: T) = .none := longest_punct_two rfl h'
  refine clex_of_best (u := ['+']) (r := punctRule "+") hrules rfl ?_
  simp only [List.singleton_append, Lexer.best, h₁, h₂, h₃, longest_other]
  rfl

theorem clex_minus (h : T.head? ≠ some '-') (h' : T.head? ≠ some '=') (h'' : T.head? ≠ some '>') :
    clex ('-' :: T) = .punct "-" :: clex T := by
  have hrules : (crules.filter fun q => q.regex.first '-') =
      [punctRule "->", punctRule "--", punctRule "-", punctRule "-=", otherRule] := rfl
  have h₁ : longest (punctRule "->").regex ('-' :: T) = .none := longest_punct_two rfl h''
  have h₂ : longest (punctRule "--").regex ('-' :: T) = .none := longest_punct_two rfl h
  have h₃ : longest (punctRule "-").regex ('-' :: T) = some 1 := longest_punct_one rfl T
  have h₄ : longest (punctRule "-=").regex ('-' :: T) = .none := longest_punct_two rfl h'
  refine clex_of_best (u := ['-']) (r := punctRule "-") hrules rfl ?_
  simp only [List.singleton_append, Lexer.best, h₁, h₂, h₃, h₄, longest_other]
  rfl

theorem clex_star (h : T.head? ≠ some '=') : clex ('*' :: T) = .punct "*" :: clex T := by
  have hrules : (crules.filter fun q => q.regex.first '*') = [punctRule "*", punctRule "*=", otherRule] := rfl
  have h₁ : longest (punctRule "*").regex ('*' :: T) = some 1 := longest_punct_one rfl T
  have h₂ : longest (punctRule "*=").regex ('*' :: T) = .none := longest_punct_two rfl h
  refine clex_of_best (u := ['*']) (r := punctRule "*") hrules rfl ?_
  simp only [List.singleton_append, Lexer.best, h₁, h₂, longest_other]
  rfl

theorem clex_equals (h : T.head? ≠ some '=') : clex ('=' :: T) = .punct "=" :: clex T := by
  have hrules : (crules.filter fun q => q.regex.first '=') = [punctRule "==", punctRule "=", otherRule] := rfl
  have h₁ : longest (punctRule "==").regex ('=' :: T) = .none := longest_punct_two rfl h
  have h₂ : longest (punctRule "=").regex ('=' :: T) = some 1 := longest_punct_one rfl T
  refine clex_of_best (u := ['=']) (r := punctRule "=") hrules rfl ?_
  simp only [List.singleton_append, Lexer.best, h₁, h₂, longest_other]
  rfl

theorem longest_comment {d : Char} {r : Regex Char} (h : T.head? ≠ some d) :
    longest (seq (lit ['/', d]) r) ('/' :: T) = .none := by
  refine longest_eq_none_iff.mpr fun u v he hu => ?_
  obtain ⟨x, hx, y, -, rfl⟩ := mem_seq.mp hu
  rw [mem_lit.mp hx] at he
  obtain ⟨-, rfl⟩ := List.cons.inj he
  exact h rfl

theorem clex_slash (h : T.head? ≠ some '=') (h' : T.head? ≠ some '*') (h'' : T.head? ≠ some '/') :
    clex ('/' :: T) = .punct "/" :: clex T := by
  have hrules : (crules.filter fun q => q.regex.first '/') =
      [⟨blockComment, fun _ => .none⟩, ⟨lineComment, fun _ => .none⟩,
      punctRule "/", punctRule "/=", otherRule] := rfl
  have hblock : longest blockComment ('/' :: T) = .none := longest_comment h'
  have hline : longest lineComment ('/' :: T) = .none := longest_comment h''
  have h₁ : longest (punctRule "/").regex ('/' :: T) = some 1 := longest_punct_one rfl T
  have h₂ : longest (punctRule "/=").regex ('/' :: T) = .none := longest_punct_two rfl h
  refine clex_of_best (u := ['/']) (r := punctRule "/") hrules rfl ?_
  simp only [List.singleton_append, Lexer.best, hblock, hline, h₁, h₂, longest_other]
  rfl

theorem clex_arrow (T : Text) : clex ('-' :: '>' :: T) = .punct "->" :: clex T := by
  have hrules : (crules.filter fun q => q.regex.first '-') =
      [punctRule "->", punctRule "--", punctRule "-", punctRule "-=", otherRule] := rfl
  have h₁ : longest (punctRule "->").regex ('-' :: '>' :: T) = some 2 :=
    longest_eq_some_iff.mpr ⟨['-', '>'], T, rfl, rfl, mem_lit.mpr rfl, fun u v _ hu => by rw [mem_lit.mp hu]; rfl⟩
  have h₂ : longest (punctRule "--").regex ('-' :: '>' :: T) = .none := longest_punct_two (d := '-') rfl (by simp)
  have h₃ : longest (punctRule "-").regex ('-' :: '>' :: T) = some 1 := longest_punct_one rfl _
  have h₄ : longest (punctRule "-=").regex ('-' :: '>' :: T) = .none := longest_punct_two (d := '=') rfl (by simp)
  refine clex_of_best (u := ['-', '>']) (r := punctRule "->") hrules rfl ?_
  simp only [List.cons_append, List.nil_append, Lexer.best, h₁, h₂, h₃, h₄, longest_other]
  rfl

/-! ## Words and numbers -/

theorem ascii_of_isLetter (h : isLetter c = true) : c.toNat < 128 := by
  have hc : c.isAlpha = true ∨ c = '_' := by simpa [isLetter] using h
  rcases hc with hc | rfl
  · have hval : (decide (c.val ≥ 65 ∧ c.val ≤ 90) || decide (c.val ≥ 97) && decide (c.val ≤ 122)) = true := hc
    have hle : 65 ≤ c.toNat ∧ c.toNat ≤ 90 ∨ 97 ≤ c.toNat ∧ c.toNat ≤ 122 := by
      simpa [UInt32.le_iff_toNat_le] using hval
    omega
  · decide

def letters : List Char := "abcdefghijklmnopqrstuvwxyzABCDEFGHIJKLMNOPQRSTUVWXYZ_".toList

theorem letter_cases (h : isLetter c = true) : c ∈ letters := by
  have hall : ∀ n < 128, isLetter (Char.ofNat n) = true → Char.ofNat n ∈ letters := by decide
  have hc := hall c.toNat (ascii_of_isLetter h)
  rw [Char.ofNat_toNat] at hc
  exact hc h

theorem rules_letter (h : isLetter c = true) : (crules.filter fun q => q.regex.first c) = [identRule, otherRule] := by
  have hall : ∀ d ∈ letters, (crules.filter fun q => q.regex.first d) = [identRule, otherRule] := by
    show ∀ d ∈ ['a', 'b', 'c', 'd', 'e', 'f', 'g', 'h', 'i', 'j', 'k', 'l', 'm', 'n', 'o', 'p', 'q', 'r', 's', 't', 'u',
      'v', 'w', 'x', 'y', 'z', 'A', 'B', 'C', 'D', 'E', 'F', 'G', 'H', 'I', 'J', 'K', 'L', 'M', 'N', 'O', 'P', 'Q', 'R',
      'S', 'T', 'U', 'V', 'W', 'X', 'Y', 'Z', '_'], _
    simp only [List.forall_mem_cons, List.not_mem_nil, IsEmpty.forall_iff, implies_true, and_true]
    and_intros
    all_goals rfl
  exact hall c (letter_cases h)

/-- Letters and digits up to a character of another kind. -/
theorem clex_word (hc : isLetter c = true) (hu : ∀ a ∈ u, identChar a = true) (hT : Stops identChar T) :
    clex (c :: (u ++ T)) = .ident (c :: u) :: clex T := by
  have hword : longest identRule.regex (c :: (u ++ T)) = some (u.length + 1) := by
    unfold identRule identifier
    rw [longest_seq_cls, if_pos hc, ← longest_seq_eps (r := star _),
      longest_seq_star hu hT (fun _ _ => rfl) (mem_eps.mpr rfl),
      longest_eps, Option.map_some, Option.map_some, Nat.zero_add]
  refine clex_of_best (u := c :: u) (r := identRule) (rules_letter hc) rfl ?_
  simp only [List.cons_append, Lexer.best, hword, longest_other]
  rw [if_pos (Nat.le_add_left 1 u.length)]
  rfl

def numChar (c : Char) : Bool := identChar c || c == '.'

/-- The letters behind which a number goes on with a sign. -/
def expLetter (c : Char) : Bool := isExp c || c == 'p' || c == 'P'

/-- `c` stands behind `a` in a number. -/
def Goes (a c : Char) : Prop := numChar c = true ∨ expLetter a = true

theorem expLetter_numChar (h : expLetter c = true) : numChar c = true := by
  have hc : ((c = 'e' ∨ c = 'E') ∨ c = 'p') ∨ c = 'P' := by simpa [expLetter, isExp] using h
  rcases hc with ((rfl | rfl) | rfl) | rfl <;> rfl

theorem digit_numChar (h : digit c = true) : numChar c = true := by simp [numChar, identChar, h]

def numberTail : Regex Char := star (alt (seq (cls expLetter) (cls isSign)) (cls numChar))

theorem ppNumber_eq : ppNumber = seq (opt (chr '.')) (seq (cls digit) numberTail) := rfl

theorem chain_of_mem_tail (h : u ∈ numberTail.lang) (a : Char) : (a :: u).IsChain Goes := by
  obtain ⟨L, rfl, hL⟩ := Language.mem_kstar.mp h
  clear h
  induction L generalizing a with
  | nil => exact .singleton a
  | cons y L ih =>
    obtain ⟨hy, hL'⟩ := List.forall_mem_cons.mp hL
    rcases mem_alt.mp hy with hy | ⟨b, hb, rfl⟩
    · obtain ⟨x, ⟨e, he, rfl⟩, z, ⟨s, -, rfl⟩, rfl⟩ := mem_seq.mp hy
      exact .cons_cons (Or.inl (expLetter_numChar he)) (.cons_cons (Or.inr he) (ih s hL'))
    · exact .cons_cons (Or.inl hb) (ih b hL')

theorem chain_of_mem (h : u ∈ ppNumber.lang) : u.IsChain Goes := by
  rw [ppNumber_eq] at h
  obtain ⟨x, hx, y, hy, rfl⟩ := mem_seq.mp h
  obtain ⟨z, ⟨d, hd, rfl⟩, w, hw, rfl⟩ := mem_seq.mp hy
  have htail := chain_of_mem_tail hw d
  rcases mem_opt.mp hx with rfl | hx
  · exact htail
  · rw [mem_chr.mp hx]
    exact .cons_cons (Or.inl (digit_numChar hd)) htail

theorem rules_number (h : digit c = true) : (crules.filter fun q => q.regex.first c) = [numberRule, otherRule] := by
  have hc := digit_cases h
  simp only [List.mem_cons, List.not_mem_nil, or_false] at hc
  rcases hc with rfl | rfl | rfl | rfl | rfl | rfl | rfl | rfl | rfl | rfl <;> rfl

/-- A number whose last character is not a letter of an exponent. -/
theorem clex_number (hc : digit c = true) (hu : c :: u ∈ ppNumber.lang)
    (hlast : ∀ a ∈ (c :: u).getLast?, expLetter a = false) (hT : Stops numChar T) :
    clex (c :: (u ++ T)) = .number (c :: u) :: clex T := by
  have hnumber : longest numberRule.regex (c :: (u ++ T)) = some (u.length + 1) := by
    refine longest_eq_some_iff.mpr ⟨c :: u, T, rfl, rfl, hu, fun x y he hx => ?_⟩
    by_contra hlen
    rcases List.append_eq_append_iff.mp (show c :: u ++ T = x ++ y from he) with ⟨z, rfl, hz⟩ | ⟨z, hz, -⟩
    · cases z with
      | nil => simp at hlen
      | cons b z =>
        have hb : Goes ((c :: u).getLast (by simp)) b :=
          (List.isChain_append.mp (chain_of_mem hx)).2.2 _ (List.getLast?_eq_some_getLast (by simp)) b rfl
        rw [hz] at hT
        rcases hb with hb | hb
        · rw [hT b rfl] at hb
          cases hb
        · rw [hlast _ (List.getLast?_eq_some_getLast (by simp))] at hb
          cases hb
    · rw [← List.length_cons, hz, List.length_append] at hlen
      exact hlen (Nat.le_add_right _ _)
  refine clex_of_best (u := c :: u) (r := numberRule) (rules_number hc) rfl ?_
  simp only [List.cons_append, Lexer.best, hnumber, longest_other]
  rw [if_pos (Nat.le_add_left 1 u.length)]
  rfl

theorem mem_tail_append (hu : u ∈ numberTail.lang) (hv : v ∈ numberTail.lang) : u ++ v ∈ numberTail.lang := by
  obtain ⟨L, rfl, hL⟩ := Language.mem_kstar.mp hu
  obtain ⟨M, rfl, hM⟩ := Language.mem_kstar.mp hv
  exact Language.mem_kstar.mpr ⟨L ++ M, List.flatten_append.symm, List.forall_mem_append.mpr ⟨hL, hM⟩⟩

theorem mem_tail (hu : ∀ a ∈ u, numChar a = true) : u ∈ numberTail.lang := by
  refine Language.mem_kstar.mpr ⟨u.map fun a => [a], ?_, fun y hy => ?_⟩
  · rw [← List.flatMap_def, List.flatMap_singleton']
  obtain ⟨a, ha, rfl⟩ := List.mem_map.mp hy
  exact mem_alt.mpr (Or.inr ⟨a, hu a ha, rfl⟩)

theorem mem_tail_exponent {e s : Char} (he : expLetter e = true) (hs : isSign s = true) : [e, s] ∈ numberTail.lang :=
  Language.mem_kstar.mpr ⟨[[e, s]], rfl, fun y hy => by
    rw [List.mem_singleton.mp hy]
    exact mem_alt.mpr (Or.inl (mem_seq.mpr ⟨[e], ⟨e, he, rfl⟩, [s], ⟨s, hs, rfl⟩, rfl⟩))⟩

theorem mem_number (hc : digit c = true) (hu : u ∈ numberTail.lang) : c :: u ∈ ppNumber.lang := by
  rw [ppNumber_eq]
  exact mem_seq.mpr ⟨[], mem_opt.mpr (Or.inl rfl), c :: u, mem_seq.mpr ⟨[c], ⟨c, hc, rfl⟩, u, hu, rfl⟩, rfl⟩

end Lexemes

end Hmon.Config
