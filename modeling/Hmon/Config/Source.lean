import Hmon.Lib.Laid
import Hmon.Config.Spelling
import Hmon.Config.Meaning

/-!
# Configurations as they are written

* `Word`, `Event`, `Expr`, `Field`, `Monitor`, `Configuration` : the syntax of the configurations;
* `lexemes` of each : its tokens with their texts; `Legal` : a text that the scanner reads as the token;
* `Layout` : blanks, tabs, newlines and comments; `IsLaid` : lexemes with such text before, between and behind them, as
  much or as little as the scanner needs to keep them apart;
* `kept_blank`, `spread_isLaid` : any such text is enough, but for the name `x`, which a blank does not end;
* `scan_text` : **the scanner finds the tokens of a configuration in every such text**.
-/

namespace Hmon.Config.Source
open Lib Lib.Regex

/-! ## Syntax -/

/-- A text that a definition of the scanner matches. -/
abbrev Word (r : Regex Char) := {u : Text // u ∈ r.lang}

inductive Event
  | named (u : Word name)
  | perf (u : Word perfCtr) (hne : u.1 ≠ [])
  | net (u : Word netCtr) (hne : u.1 ≠ []) (hperf : u.1 ∉ perfCtr.lang)

inductive Expr
  | var (k : Word integer)
  | int (n : Word integer)
  | float (x : Word real) (h : x.1 ∉ integer.lang)
  | paren (e : Expr)
  | binary (a : Expr) (o : Op) (b : Expr)

structure Assignment where
  sample : Word name
  expr : Expr

inductive Field
  | obj (t : Word name)
  | objAt (t : Word name) (i : Word integer)
  | perfLib (p : Word name)
  | display (i : Word integer)
  | output (i : Word integer)
  | outputFile (p : Word path)
  | window (i : Word integer)
  | evset (e : Event) (es : List Event)
  | reduceWith (n : Word integer) (g : Word name)
  | assign (a : Assignment) (as : List Assignment)

structure Monitor where
  id : Word name
  field : Field
  fields : List Field

structure Configuration where
  monitor : Monitor
  monitors : List Monitor

/-! ## Lexemes -/

def character (c : Char) : Lexeme := (.char c, [c])

def nameOf (u : Word name) : Lexeme := (.name u.1, u.1)

def integerOf (u : Word integer) : Lexeme := (.integer u.1, u.1)

def Event.text : Event → Text
  | named u => u.1
  | perf u _ => u.1
  | net u _ _ => u.1

def Event.lexeme : Event → Lexeme
  | named u => nameOf u
  | perf u _ => (.perfCtr u.1, u.1)
  | net u _ _ => (.netCtr u.1, u.1)

def Expr.lexemes : Expr → List Lexeme
  | var k => [(.var (varToReference ('$' :: k.1)), '$' :: k.1)]
  | int n => [integerOf n]
  | float x _ => [(.real x.1, x.1)]
  | paren e => character '(' :: (e.lexemes ++ [character ')'])
  | binary a o b => a.lexemes ++ character o.char :: b.lexemes

def Assignment.lexemes (a : Assignment) : List Lexeme := nameOf a.sample :: character '=' :: a.expr.lexemes

/-- More items behind commas. -/
def commaItems {A : Type} (f : A → List Lexeme) (as : List A) : List Lexeme := as.flatMap fun a => character ',' :: f a

def Field.lexemes : Field → List Lexeme
  | obj t => [(.objField, "OBJ:=".toList), nameOf t, character ';']
  | objAt t i => [(.objField, "OBJ:=".toList), nameOf t, character ':', integerOf i, character ';']
  | perfLib p => [(.perfLibField, "PERF_LIB:=".toList), nameOf p, character ';']
  | display i => [(.displayField, "DISPLAY:=".toList), integerOf i, character ';']
  | output i => [(.outputField, "OUTPUT:=".toList), integerOf i, character ';']
  | outputFile p => [(.outputField, "OUTPUT:=".toList), (.path p.1, p.1), character ';']
  | window i => [(.windowField, "WINDOW:=".toList), integerOf i, character ';']
  | evset e es => (.evsetField, "EVSET:=".toList) :: e.lexeme ::
      (commaItems (fun e => [e.lexeme]) es ++ [character ';'])
  | reduceWith n g => [(.reductionField, "REDUCTION:=".toList), integerOf n, character '#', nameOf g, character ';']
  | assign a as => (.reductionField, "REDUCTION:=".toList) ::
      (a.lexemes ++ (commaItems Assignment.lexemes as ++ [character ';']))

def Monitor.lexemes (m : Monitor) : List Lexeme :=
  nameOf m.id :: character '{' :: (m.field.lexemes ++ (m.fields.flatMap Field.lexemes ++ [character '}']))

def Configuration.lexemes (c : Configuration) : List Lexeme := c.monitor.lexemes ++ c.monitors.flatMap Monitor.lexemes

/-! ## What the scanner reads -/

/-- The text alone is scanned as the token. -/
def Legal (l : Lexeme) : Prop := ∃ r, Lexer.Whole rules l.2 r ∧ r.action l.2 = some l.1

theorem Legal.scan {l : Lexeme} (h : Legal l) : scan l.2 = [l.1] := by
  obtain ⟨r, hr, hact⟩ := h
  exact (Lexer.scan_whole hr).trans (by rw [hact]; rfl)

theorem legal_characters : ∀ c ∈ ['{', '}', '(', ')', ':', ';', ',', '#', '=', '+', '-', '*', '/'],
    Legal (character c) := by
  have hsingle : ∀ c, Lexer.Whole rules [c] (single c) → Legal (character c) := fun c h => ⟨single c, h, rfl⟩
  simp only [List.forall_mem_cons, List.not_mem_nil, IsEmpty.forall_iff, implies_true, and_true]
  and_intros
  all_goals exact hsingle _ ⟨by decide, rfl⟩

theorem legal_fields : ∀ p ∈ [("OBJ:=", .objField), ("EVSET:=", .evsetField), ("PERF_LIB:=", .perfLibField),
    ("REDUCTION:=", .reductionField), ("WINDOW:=", .windowField), ("DISPLAY:=", .displayField),
    ("OUTPUT:=", Token.outputField)], Legal (p.2, p.1.toList) := by
  have hkeyword : ∀ k t, Lexer.Whole rules k.toList (keyword k t) → Legal (t, k.toList) := fun k t h =>
    ⟨keyword k t, h, rfl⟩
  simp only [List.forall_mem_cons, List.not_mem_nil, IsEmpty.forall_iff, implies_true, and_true]
  and_intros
  all_goals exact hkeyword _ _ ⟨by decide, rfl⟩

/-- The rules that can start with the first character decide. -/
theorem legal_of_rules (pre : List (Rule Char Token)) {c : Char} {u : Text} {t : Token} {r : Rule Char Token}
    {post : List (Rule Char Token)} (hrules : (rules.filter fun q => q.regex.first c) = pre ++ r :: post)
    (hu : c :: u ∈ r.regex.lang)
    (hpre : ∀ q ∈ pre, c :: u ∉ q.regex.lang) (hact : r.action (c :: u) = some t) : Legal (t, c :: u) :=
  ⟨r, Lexer.whole_of_filter (hrules ▸ Lexer.whole_of_first (List.cons_ne_nil c u) hu hpre), hact⟩

/-- The keywords are no names. -/
theorem keyword_not_name {u : Text} (h : u ∈ name.lang) : ∀ q ∈ rules.take 7, u ∉ q.regex.lang := by
  have hcolon : ∀ k t, ':' ∈ k.toList → u ∉ (keyword k t).regex.lang := by
    intro k t hk hu
    rw [mem_lit.mp hu] at h
    exact absurd ((nameClass_of_mem_name h).1 _ hk) (by decide)
  simp only [rules, List.take_succ_cons, List.take_zero, List.forall_mem_cons, List.not_mem_nil, IsEmpty.forall_iff,
    implies_true, and_true]
  and_intros
  all_goals exact hcolon _ _ (by decide)

theorem legal_name (u : Word name) : Legal (nameOf u) := by
  have hne : u.1 ≠ [] := by
    intro h
    have := length_pos_of_mem_name u.2
    rw [h] at this
    exact absurd this (by decide)
  exact ⟨nameRule, Lexer.whole_of_first hne u.2 (keyword_not_name u.2), rfl⟩

/-! ### Counters -/

theorem colon_of_attr {u : Text} (h : u ∈ (star ctrAttr).lang) (hne : u ≠ []) : ':' ∈ u := by
  cases u with
  | nil => exact absurd rfl hne
  | cons c u =>
    obtain ⟨x, y, hx, -, rfl⟩ := mem_star_cons.mp h
    have hc : c = ':' := by
      have := first_of_mem hx
      simpa [ctrAttr, first, chr, nullable] using this
    exact hc ▸ List.mem_cons_self

/-- A counter is not empty, so it has a colon. -/
theorem colon_of_counter {p u : Text} (hp : ':' ∈ p) (h : u ∈ (seq (opt (seq (lit p) name)) (star ctrAttr)).lang)
    (hne : u ≠ []) : ':' ∈ u := by
  obtain ⟨x, hx, y, hy, rfl⟩ := mem_seq.mp h
  rcases mem_opt.mp hx with rfl | hx
  · exact colon_of_attr hy hne
  · obtain ⟨k, hk, n, -, rfl⟩ := mem_seq.mp hx
    rw [mem_lit.mp hk]
    simp [hp]

theorem not_name_of_colon {u : Text} (h : ':' ∈ u) : u ∉ name.lang := fun hu =>
  absurd ((nameClass_of_mem_name hu).1 _ h) (by decide)

theorem legal_event (e : Event) : Legal e.lexeme := by
  cases e with
  | named u => exact legal_name u
  | perf u hne =>
    obtain ⟨u, hu⟩ := u
    have hname := not_name_of_colon (colon_of_counter (by decide) hu hne)
    cases u with
    | nil => exact absurd rfl hne
    | cons c w =>
      have hc : c = 'p' ∨ c = ':' := by
        have := first_of_mem hu
        simpa [perfCtr, ctrAttr, first, chr, nullable, opt, lit] using this
      rcases hc with rfl | rfl
      · exact legal_of_rules [nameRule] rfl hu (List.forall_mem_singleton.mpr hname) rfl
      · exact legal_of_rules [] rfl hu (List.forall_mem_nil _) rfl
  | net u hne hperf =>
    obtain ⟨u, hu⟩ := u
    have hname := not_name_of_colon (colon_of_counter (by decide) hu hne)
    cases u with
    | nil => exact absurd rfl hne
    | cons c w =>
      have hc : c = 'n' ∨ c = ':' := by
        have := first_of_mem hu
        simpa [netCtr, ctrAttr, first, chr, nullable, opt, lit] using this
      rcases hc with rfl | rfl
      · exact legal_of_rules [nameRule] rfl hu (List.forall_mem_singleton.mpr hname) rfl
      · exact legal_of_rules [⟨perfCtr, fun s => some (.perfCtr s)⟩] rfl hu (List.forall_mem_singleton.mpr hperf) rfl

/-! ### Numbers and paths -/

theorem first_real {c : Char} {u : Text} (h : c :: u ∈ real.lang) : digit c = true ∨ c = '-' := by
  have := first_of_mem h
  simp only [real, integer, first, opt, plus, chr, nullable, Bool.or_false, Bool.and_true, Bool.or_true, Bool.false_and,
    Bool.and_false, Bool.true_and, Bool.or_eq_true, decide_eq_true_eq] at this
  tauto

/-- The last character is a digit. -/
def EndsDigit (u : Text) : Prop := ∃ w d, u = w ++ [d] ∧ digit d = true

theorem EndsDigit.append {x y : Text} (hx : EndsDigit x) (hy : y = [] ∨ EndsDigit y) : EndsDigit (x ++ y) := by
  rcases hy with rfl | ⟨w, d, rfl, hd⟩
  · rwa [List.append_nil]
  · exact ⟨x ++ w, d, (List.append_assoc x w [d]).symm, hd⟩

theorem EndsDigit.behind {y : Text} (x : Text) (hy : EndsDigit y) : EndsDigit (x ++ y) := by
  obtain ⟨w, d, rfl, hd⟩ := hy
  exact ⟨x ++ w, d, (List.append_assoc x w [d]).symm, hd⟩

theorem endsDigit_integer {u : Text} (h : u ∈ integer.lang) : EndsDigit u := by
  obtain ⟨x, -, y, hy, rfl⟩ := mem_seq.mp h
  obtain ⟨hne, hdigits⟩ := mem_plus_cls.mp hy
  exact EndsDigit.behind x ⟨y.dropLast, y.getLast hne, (List.dropLast_append_getLast hne).symm,
    hdigits _ (List.getLast_mem hne)⟩

theorem endsDigit_real {u : Text} (h : u ∈ real.lang) : EndsDigit u := by
  obtain ⟨x, -, y, hy, rfl⟩ := mem_seq.mp h
  obtain ⟨n, hn, z, hz, rfl⟩ := mem_seq.mp hy
  obtain ⟨f, hf, e, he, rfl⟩ := mem_seq.mp hz
  have hfraction : f = [] ∨ EndsDigit f := (mem_opt.mp hf).imp_right fun hf => by
    obtain ⟨a, -, b, hb, rfl⟩ := mem_seq.mp hf
    exact (endsDigit_integer hb).behind a
  have hexponent : e = [] ∨ EndsDigit e := (mem_opt.mp he).imp_right fun he => by
    obtain ⟨a, -, b, hb, rfl⟩ := mem_seq.mp he
    obtain ⟨s, -, ds, hds, rfl⟩ := mem_seq.mp hb
    exact ((endsDigit_integer hds).behind s).behind a
  refine EndsDigit.behind x ?_
  rw [← List.append_assoc]
  exact ((endsDigit_integer hn).append hfraction).append hexponent

/-- A number starts with no letter and ends with none. -/
theorem real_not_name {u : Text} (h : u ∈ real.lang) : u ∉ name.lang := by
  intro hu
  rcases mem_name.mp hu with ⟨c, w, rfl, hc, -⟩ | ⟨w, c, rfl, hc, -⟩
  · rcases first_real h with hd | rfl
    · rw [digit_not_alpha hd] at hc
      cases hc
    · cases hc
  · obtain ⟨v, d, he, hd⟩ := endsDigit_real h
    have hcd : c = d := by simpa using congrArg List.getLast? he
    rw [hcd, digit_not_alpha hd] at hc
    cases hc

theorem integer_mem_real {u : Text} (h : u ∈ integer.lang) : u ∈ real.lang :=
  mem_seq.mpr ⟨[], mem_opt.mpr (.inl rfl), u, mem_seq.mpr ⟨u, h, [], mem_seq.mpr ⟨[], mem_opt.mpr (.inl rfl), [],
    mem_opt.mpr (.inl rfl), rfl⟩, (List.append_nil u).symm⟩, rfl⟩

/-- The rules for a text that starts like a number. -/
theorem rules_number_first {c : Char} {u : Text} (h : c :: u ∈ real.lang) : ∃ rest,
    (rules.filter fun q => q.regex.first c) = nameRule :: integerRule :: realRule :: rest := by
  rcases first_real h with hd | rfl
  · exact ⟨_, rules_digit hd⟩
  · exact ⟨_, rules_minus⟩

theorem legal_real {u : Text} (h : u ∈ real.lang) {t : Token} (ht : u ∈ integer.lang ∧ t = .integer u ∨
    u ∉ integer.lang ∧ t = .real u) : Legal (t, u) := by
  cases u with
  | nil =>
    obtain ⟨w, d, he, -⟩ := endsDigit_real h
    exact absurd he (by simp)
  | cons c u =>
    obtain ⟨rest, hrules⟩ := rules_number_first h
    rcases ht with ⟨hi, rfl⟩ | ⟨hi, rfl⟩
    · exact legal_of_rules [nameRule] hrules hi (List.forall_mem_singleton.mpr (real_not_name h)) rfl
    · exact legal_of_rules [nameRule, integerRule] hrules h (List.forall_mem_cons.mpr ⟨real_not_name h,
        List.forall_mem_singleton.mpr hi⟩) rfl

theorem legal_integer (n : Word integer) : Legal (integerOf n) :=
  legal_real (integer_mem_real n.2) (.inl ⟨n.2, rfl⟩)

theorem legal_var {k : Text} (h : k ∈ integer.lang) : Legal (.var (varToReference ('$' :: k)), '$' :: k) :=
  legal_of_rules [] rfl (mem_seq.mpr ⟨['$'], mem_chr.mpr rfl, k, h, rfl⟩) (List.forall_mem_nil _) rfl

theorem legal_path (p : Word path) : Legal (.path p.1, p.1) := by
  obtain ⟨p, hp⟩ := p
  cases p with
  | nil =>
    obtain ⟨x, -, y, hy, he⟩ := mem_seq.mp hp
    obtain ⟨v, hv, z, -, rfl⟩ := mem_seq.mp hy
    obtain ⟨a, ha, b, -, rfl⟩ := mem_seq.mp hv
    rw [mem_chr.mp ha] at he
    exact absurd he (by simp)
  | cons c p =>
    have hc : c = '~' ∨ c = '/' := by
      have := first_of_mem hp
      simpa [path, plus, first, chr, nullable, opt] using this
    rcases hc with rfl | rfl <;> exact legal_of_rules [] rfl hp (List.forall_mem_nil _) rfl

/-! ## All lexemes are legal -/

theorem Expr.legal (e : Expr) : ∀ l ∈ e.lexemes, Legal l := by
  induction e with
  | var k => exact List.forall_mem_singleton.mpr (legal_var k.2)
  | int n => exact List.forall_mem_singleton.mpr (legal_integer n)
  | float x h => exact List.forall_mem_singleton.mpr (legal_real x.2 (.inr ⟨h, rfl⟩))
  | paren e ih =>
    exact List.forall_mem_cons.mpr ⟨legal_characters _ (by decide), List.forall_mem_append.mpr ⟨ih,
      List.forall_mem_singleton.mpr (legal_characters _ (by decide))⟩⟩
  | binary a o b iha ihb =>
    have ho : Legal (character o.char) := legal_characters _ (by cases o <;> decide)
    exact List.forall_mem_append.mpr ⟨iha, List.forall_mem_cons.mpr ⟨ho, ihb⟩⟩

theorem Assignment.legal (a : Assignment) : ∀ l ∈ a.lexemes, Legal l :=
  List.forall_mem_cons.mpr ⟨legal_name a.sample, List.forall_mem_cons.mpr
    ⟨legal_characters _ (by decide), a.expr.legal⟩⟩

theorem legal_commaItems {A : Type} {f : A → List Lexeme} (hf : ∀ a, ∀ l ∈ f a, Legal l) (as : List A) :
    ∀ l ∈ commaItems f as, Legal l := by
  intro l hl
  obtain ⟨a, -, hl⟩ := List.mem_flatMap.mp hl
  exact List.forall_mem_cons.mpr ⟨legal_characters _ (by decide), hf a⟩ l hl

theorem Field.legal (f : Field) : ∀ l ∈ f.lexemes, Legal l := by
  have hend : Legal (character ';') := legal_characters _ (by decide)
  cases f <;> simp only [Field.lexemes, List.forall_mem_cons, List.forall_mem_append, List.not_mem_nil,
    IsEmpty.forall_iff, implies_true, and_true, legal_name, legal_integer, hend, true_and]
  case obj t => exact legal_fields ("OBJ:=", _) (by simp)
  case objAt t i => exact ⟨legal_fields ("OBJ:=", _) (by simp), legal_characters _ (by decide)⟩
  case perfLib p => exact legal_fields ("PERF_LIB:=", _) (by simp)
  case display i => exact legal_fields ("DISPLAY:=", _) (by simp)
  case output i => exact legal_fields ("OUTPUT:=", _) (by simp)
  case outputFile p => exact ⟨legal_fields ("OUTPUT:=", _) (by simp), legal_path p⟩
  case window i => exact legal_fields ("WINDOW:=", _) (by simp)
  case evset e es =>
    exact ⟨legal_fields ("EVSET:=", _) (by simp), legal_event e,
      legal_commaItems (fun e => List.forall_mem_singleton.mpr (legal_event e)) es⟩
  case reduceWith n g => exact ⟨legal_fields ("REDUCTION:=", _) (by simp), legal_characters _ (by decide)⟩
  case assign a as => exact ⟨legal_fields ("REDUCTION:=", _) (by simp), a.legal, legal_commaItems Assignment.legal as⟩

theorem Monitor.legal (m : Monitor) : ∀ l ∈ m.lexemes, Legal l := by
  have hfields : ∀ l ∈ m.fields.flatMap Field.lexemes, Legal l := fun l hl => by
    obtain ⟨f, -, hl⟩ := List.mem_flatMap.mp hl
    exact f.legal l hl
  exact List.forall_mem_cons.mpr ⟨legal_name m.id, List.forall_mem_cons.mpr ⟨legal_characters _ (by decide),
    List.forall_mem_append.mpr ⟨m.field.legal, List.forall_mem_append.mpr ⟨hfields,
      List.forall_mem_singleton.mpr (legal_characters _ (by decide))⟩⟩⟩⟩

theorem Configuration.legal (c : Configuration) : ∀ l ∈ c.lexemes, Legal l :=
  List.forall_mem_append.mpr ⟨c.monitor.legal, fun l hl => by
    obtain ⟨m, -, hl⟩ := List.mem_flatMap.mp hl
    exact m.legal l hl⟩

/-! ## Layout -/

/-- Blanks, tabs, newlines, and comments that end their line; inside of a comment to begin with, if `comment`. -/
def layout : (comment : Bool) → Text → Bool
  | comment, [] => !comment
  | true, c :: s => layout (c != '\n') s
  | false, c :: s => if c = '%' then layout true s else (c == ' ' || c == '\t' || c == '\n') && layout false s

abbrev Layout (g : Text) : Prop := layout false g = true

theorem scan_newline (s : Text) : scan ('\n' :: s) = scan s := by
  have hnewline : longest (chr '\n') ('\n' :: s) = some 1 := longest_chr '\n' s
  have hbest : Lexer.best (['\n'] ++ s) [⟨chr '\n', fun _ => none⟩, defaultRule] =
      some (1, ⟨chr '\n', fun _ => none⟩) := by
    simp [Lexer.best, hnewline, longest_default]
  exact scan_of_best (a := '\n') (u := ['\n']) rfl rfl hbest

theorem scan_comment {t : Text} (ht : '\n' ∉ t) (s : Text) : scan ('%' :: (t ++ '\n' :: s)) = scan s := by
  have hclass : ∀ c ∈ t, (fun c => c != '\n') c = true := fun c hc => by
    simpa using fun he : c = '\n' => ht (he ▸ hc)
  have hcomment : longest (seq (chr '%') (star (cls fun c => c != '\n'))) ('%' :: (t ++ '\n' :: s)) =
      some (t.length + 1) := by
    unfold chr
    rw [longest_seq_cls, if_pos (decide_eq_true rfl), ← longest_seq_eps, longest_seq_star hclass
      (fun c hc => by cases hc; rfl) (fun _ _ => rfl) (mem_eps.mpr rfl), longest_eps]
    simp
  have hbest : Lexer.best (('%' :: t) ++ '\n' :: s)
      [⟨seq (chr '%') (star (cls fun c => c != '\n')), fun _ => none⟩, defaultRule] =
        some (('%' :: t).length, ⟨seq (chr '%') (star (cls fun c => c != '\n')), fun _ => none⟩) := by
    simp [Lexer.best, hcomment, longest_default]
  exact (scan_of_best (u := '%' :: t) rfl rfl hbest).trans (scan_newline s)

/-- The text before a comment is closed, and the text of layout behind it, are skipped. -/
theorem layout_scan (g : Text) : (layout false g = true → ∀ w, scan (g ++ w) = scan w) ∧
    (layout true g = true → ∀ t, '\n' ∉ t → ∀ w, scan ('%' :: (t ++ (g ++ w))) = scan w) := by
  induction g with
  | nil => exact ⟨fun _ _ => rfl, fun h => by cases h⟩
  | cons c g ih =>
    refine ⟨fun h w => ?_, fun h t ht w => ?_⟩
    · rw [layout] at h
      split_ifs at h with hc
      · subst hc
        exact ih.2 h [] List.not_mem_nil w
      · obtain ⟨hblank, hg⟩ := Bool.and_eq_true_iff.mp h
        refine Eq.trans ?_ (ih.1 hg w)
        simp only [Bool.or_eq_true, beq_iff_eq, or_assoc] at hblank
        rcases hblank with rfl | rfl | rfl
        · exact scan_blank rfl (g ++ w)
        · exact scan_blank rfl (g ++ w)
        · exact scan_newline (g ++ w)
    · by_cases hc : c = '\n'
      · subst hc
        exact (scan_comment ht (g ++ w)).trans (ih.1 h w)
      · have hg : layout true g = true := by
          rwa [layout, bne_iff_ne.mpr hc] at h
        have hmem : '\n' ∉ t ++ [c] := fun hmem => by
          rcases List.mem_append.mp hmem with hmem | hmem
          · exact ht hmem
          · exact hc (List.mem_singleton.mp hmem).symm
        have hgo := ih.2 hg (t ++ [c]) hmem w
        rwa [List.append_assoc] at hgo

theorem layout_silent {g : Text} (h : Layout g) : Lexer.Silent rules g := (layout_scan g).1 h

/-- The lexemes, kept apart, with layout before, between and behind them. -/
def IsLaid (ls : List Lexeme) (s : Text) : Prop :=
  ∃ ps last, ps.map Prod.snd = ls.map Prod.snd ∧ Lexer.Laid rules Layout ps last ∧ s = Lexer.layOut ps last

def commentRule : Rule Char Token := ⟨seq (chr '%') (star (cls fun c => c != '\n')), fun _ => none⟩

/-- The rule for an `x` and any character behind it. -/
def dropRule : Rule Char Token := ⟨seq (chr 'x') (cls fun c => c != '\n'), fun _ => none⟩

/-- The rules that go on over layout. -/
theorem rules_layout {c : Char} (hc : c ∈ [' ', '\t', '\n', '%']) {q : Rule Char Token} (hq : q ∈ rules)
    (hinner : q.regex.inner c = true) : c ≠ '\n' ∧ (q = commentRule ∨ q = dropRule) := by
  have hmem : q ∈ rules.filter fun q => q.regex.inner c := List.mem_filter.mpr ⟨hq, hinner⟩
  have htwo : ∀ q ∈ [commentRule, dropRule], q = commentRule ∨ q = dropRule := by simp
  simp only [List.mem_cons, List.not_mem_nil, or_false] at hc
  rcases hc with rfl | rfl | rfl | rfl
  · exact ⟨by decide, htwo q hmem⟩
  · exact ⟨by decide, htwo q hmem⟩
  · exact absurd (show q ∈ [] from hmem) List.not_mem_nil
  · exact ⟨by decide, htwo q hmem⟩

/-- No lexeme starts like a comment. -/
theorem Legal.ne_percent {t : Token} {a : Char} {A : Text} (h : Legal (t, a :: A)) : a ≠ '%' := by
  rintro rfl
  obtain ⟨r, hr, hact⟩ := h
  obtain ⟨hmem, htakes, -⟩ := Lexer.best_spec hr.taken
  have hlang := htakes.2
  rw [List.take_length] at hlang
  have hfilter : r ∈ rules.filter fun q => q.regex.first '%' := List.mem_filter.mpr ⟨hmem, first_of_mem hlang⟩
  rcases List.mem_cons.mp (show r ∈ [commentRule, defaultRule] from hfilter) with rfl | hr
  · cases hact
  · rw [List.mem_singleton.mp hr] at hact
    cases hact

/-- **Layout keeps any lexeme apart, but the name `x` only if it begins with a newline.** -/
theorem kept_blank {l : Lexeme} (h : Legal l) {c : Char} (hc : c ∈ [' ', '\t', '\n', '%'])
    (hx : l.2 = ['x'] → c = '\n') (T : Text) : Lexer.Kept rules l.2 (c :: T) := by
  obtain ⟨t, u⟩ := l
  cases u with
  | nil =>
    obtain ⟨r, hr, -⟩ := h
    exact absurd rfl hr.ne
  | cons a A =>
    refine Lexer.kept_cons fun q hq hfirst hinner n hn => ?_
    obtain ⟨hnewline, rfl | rfl⟩ := rules_layout hc hq hinner
    · have hpercent : a = '%' := by simpa [commentRule, first, chr, nullable] using hfirst
      exact absurd hpercent h.ne_percent
    · -- two characters at most, of which the first is `x`
      obtain ⟨y, hy, z, ⟨b, -, rfl⟩, he⟩ := mem_seq.mp hn.2
      rw [mem_chr.mp hy] at he
      have hlen := congrArg List.length he
      rw [List.length_take_of_le hn.1] at hlen
      have htwo : n = 2 := hlen
      have ha : a = 'x' := by
        rw [htwo] at he
        exact (List.cons.inj he).1
      cases A with
      | nil => exact absurd (hx (congrArg (fun a => [a]) ha)) hnewline
      | cons d A => simp only [List.length_cons]; omega

theorem layout_head {c : Char} {g : Text} (h : Layout (c :: g)) : c ∈ [' ', '\t', '\n', '%'] := by
  unfold Layout at h
  rw [layout] at h
  split_ifs at h with hc
  · simp [hc]
  · have hblank := (Bool.and_eq_true_iff.mp h).1
    simp only [Bool.or_eq_true, beq_iff_eq, or_assoc] at hblank
    rcases hblank with rfl | rfl | rfl
    · decide
    · decide
    · decide

/-- Lexemes with a text behind each. -/
def spread (ls : List (Lexeme × Text)) : Text := ls.flatMap fun p => p.1.2 ++ p.2

/-- There is layout behind the lexeme, behind the name `x` a newline. -/
def Separated (p : Lexeme × Text) : Prop :=
  Layout p.2 ∧ ∃ c g, p.2 = c :: g ∧ (p.1.2 = ['x'] → c = '\n')

/-- **Lexemes with any layout behind each are laid out.** -/
theorem spread_isLaid {ls : List (Lexeme × Text)} {lead : Text} (hlead : Layout lead)
    (hls : ∀ p ∈ ls, Legal p.1 ∧ Separated p) : IsLaid (ls.map Prod.fst) (lead ++ spread ls) := by
  induction ls generalizing lead with
  | nil => exact ⟨[], lead, rfl, hlead, List.append_nil lead⟩
  | cons p ls ih =>
    obtain ⟨l, g⟩ := p
    obtain ⟨⟨hlegal, hg, c, g', hcons, hx⟩, hls⟩ := List.forall_mem_cons.mp hls
    obtain ⟨ps, last, hps, hlaid, htext⟩ := ih hg hls
    obtain rfl : g = c :: g' := hcons
    refine ⟨(lead, l.2) :: ps, last, congrArg (l.2 :: ·) hps, ⟨hlead, ?_, hlaid⟩, ?_⟩
    · rw [← htext]
      exact kept_blank hlegal (layout_head hg) hx _
    · show lead ++ ((l.2 ++ c :: g') ++ spread ls) = lead ++ (l.2 ++ Lexer.layOut ps last)
      rw [← htext, List.append_assoc]

/-- **The scanner finds the tokens of legal lexemes in every text that is laid out so.** -/
theorem scan_text {ls : List Lexeme} {s : Text} (hls : ∀ l ∈ ls, Legal l) (h : IsLaid ls s) :
    scan s = ls.map Prod.fst := by
  obtain ⟨ps, last, hps, hlaid, rfl⟩ := h
  have hscan := Lexer.scan_layOut (fun g => layout_silent) hlaid fun p hp => by
    have hmem : p.2 ∈ ls.map Prod.snd := hps ▸ List.mem_map_of_mem hp
    obtain ⟨l, hl, he⟩ := List.mem_map.mp hmem
    obtain ⟨r, hr, -⟩ := hls l hl
    exact ⟨r, he ▸ hr⟩
  refine hscan.trans ?_
  rw [hps, List.flatMap_map, ← List.flatMap_singleton' (l := ls.map Prod.fst), List.flatMap_map]
  exact List.flatMap_congr fun l hl => (hls l hl).scan

end Hmon.Config.Source
