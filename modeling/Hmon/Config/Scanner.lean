import Hmon.Lib.Lexer

/-!
# The scanner of configurations (`scanner.l`)

* `Text` : bytes as characters; `Token` : the tokens with their semantic values;
* `integer`, `name`, `real`, … : the definitions of `scanner.l`; `rules` : its rules in order, then the default rule;
* `varToReference` : the text of a variable in the generated code;
* `scan` : the tokens of a text; `scan_char`, `scan_skip`, … : one lexeme of it.
-/

namespace Hmon.Config
open Lib Lib.Regex

abbrev Text := List Char

/-- A property of the characters of a text is decided on the text, not on all characters. -/
instance decidableForallMemText {p : Char → Prop} [DecidablePred p] (s : Text) : Decidable (∀ c ∈ s, p c) :=
  List.decidableBAll p s

instance decidableMemTexts (s : Text) (ss : List Text) : Decidable (s ∈ ss) := inferInstance

inductive Token
  | objField
  | evsetField
  | perfLibField
  | reductionField
  | windowField
  | displayField
  | outputField
  | name (s : Text)
  | perfCtr (s : Text)
  | netCtr (s : Text)
  | var (s : Text)
  | path (s : Text)
  | integer (s : Text)
  | real (s : Text)
  | char (c : Char)
  deriving DecidableEq, Repr

/-- `snprintf(reference, 16, "events[%s]\n", var + 1)`. -/
def varToReference (var : Text) : Text :=
  ("events[".toList ++ var.drop 1 ++ "]\n".toList).take 15

/-! ## Definitions -/

/-- `[\_\-[:alnum:]]` with the `[` that the source puts into the class. -/
def nameClass (c : Char) : Bool := c == '[' || c == '_' || c == '-' || c.isAlphanum

def integer : Regex Char := seq (opt (chr '-')) (plus (cls Char.isDigit))

def name : Regex Char :=
  alt (seq (cls Char.isAlpha) (star (cls nameClass))) (seq (star (cls nameClass)) (cls Char.isAlpha))

/-- `(\.{integer})?` -/
def fraction : Regex Char := opt (seq (chr '.') integer)

/-- `([eE][\+\-]{integer})?` -/
def exponent : Regex Char :=
  opt (seq (cls fun c => c == 'e' || c == 'E') (seq (cls fun c => c == '+' || c == '-') integer))

def real : Regex Char := seq (opt (chr '-')) (seq integer (seq fraction exponent))

def var : Regex Char := seq (chr '$') integer

def hexa : Regex Char :=
  seq (lit "0x".toList) (plus (cls fun c => c.isDigit || 'A' ≤ c && c ≤ 'F' || 'a' ≤ c && c ≤ 'f'))

def affectation : Regex Char :=
  alt (seq name (seq (chr '=') name)) (alt (seq name (seq (chr '=') integer)) (seq name (seq (chr '=') hexa)))

def ctrAttr : Regex Char := alt (seq (chr ':') affectation) (seq (chr ':') name)

def netCtr : Regex Char := seq (opt (seq (lit "net:::".toList) name)) (star ctrAttr)

def perfCtr : Regex Char := seq (opt (seq (lit "perf::".toList) name)) (star ctrAttr)

def file : Regex Char := plus (seq (opt (chr '.')) name)

def path : Regex Char := seq (opt (chr '~')) (plus (seq (chr '/') file))

/-! ## Rules -/

def keyword (s : String) (t : Token) : Rule Char Token := ⟨lit s.toList, fun _ => some t⟩

def single (c : Char) : Rule Char Token := ⟨chr c, fun _ => some (.char c)⟩

def nameRule : Rule Char Token := ⟨name, fun s => some (.name s)⟩

def varRule : Rule Char Token := ⟨var, fun s => some (.var (varToReference s))⟩

def pathRule : Rule Char Token := ⟨path, fun s => some (.path s)⟩

def integerRule : Rule Char Token := ⟨integer, fun s => some (.integer s)⟩

def realRule : Rule Char Token := ⟨real, fun s => some (.real s)⟩

/-- The rule of flex for a character that no rule takes: it is printed. -/
def defaultRule : Rule Char Token := ⟨cls fun _ => true, fun _ => none⟩

def rules : List (Rule Char Token) := [
  keyword "OBJ:=" .objField,
  keyword "EVSET:=" .evsetField,
  keyword "PERF_LIB:=" .perfLibField,
  keyword "REDUCTION:=" .reductionField,
  keyword "WINDOW:=" .windowField,
  keyword "DISPLAY:=" .displayField,
  keyword "OUTPUT:=" .outputField,
  nameRule,
  ⟨perfCtr, fun s => some (.perfCtr s)⟩,
  ⟨netCtr, fun s => some (.netCtr s)⟩,
  varRule,
  pathRule,
  integerRule,
  realRule,
  single '-',
  single '+',
  single '*',
  single '/',
  single '}',
  single '{',
  single ')',
  single '(',
  single ';',
  single ':',
  single ',',
  single '.',
  single '#',
  single '=',
  ⟨chr '\n', fun _ => none⟩,
  ⟨seq (chr '%') (star (cls fun c => c != '\n')), fun _ => none⟩,
  ⟨seq (chr 'x') (cls fun c => c != '\n'), fun _ => none⟩,
  defaultRule]

/-- The tokens that `yylex` returns on a text. -/
def scan (s : Text) : List Token := Lexer.scan rules s

end Hmon.Config
