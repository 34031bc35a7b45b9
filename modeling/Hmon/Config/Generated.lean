import Hmon.Config.Compile
import Mathlib.Data.List.Forall2

/-!
# The generated function

* `integerValue_decimal` : C reads back the number of a sample;
* `clex_function`, `run_function` : the tokens of the generated file, and what a call of the function stores;
* `assignments_of_list` : the text that the parser's actions build for an accepted list;
* `preservesMeaning` : **the generated function preserves the meaning of a faithful list**;
* `half_preserves_nothing` : a quotient of integers is truncated.
-/

namespace Hmon.Config
open Lib Lib.Regex Lib.Precedence

/-! ## The number of a sample -/

theorem digit_decimal (n : Nat) : ∀ c ∈ decimal n, digit c = true :=
  fun _ hc => Nat.isDigit_of_mem_toDigits (by decide) (by decide) hc

theorem decimal_ne (n : Nat) : decimal n ≠ [] := Nat.toDigits_ne_nil

theorem decimal_lt {n : Nat} (h : n < 10) : decimal n = [Nat.digitChar n] := Nat.toDigits_of_lt_base h

theorem decimal_ge {n : Nat} (h : 10 ≤ n) : decimal n = decimal (n / 10) ++ [Nat.digitChar (n % 10)] :=
  Nat.toDigits_of_base_le (by decide) h

theorem digitChar_value {n : Nat} (h : n < 10) : (Nat.digitChar n).toNat - '0'.toNat = n :=
  (by decide : ∀ n < 10, (Nat.digitChar n).toNat - '0'.toNat = n) n h

theorem digitsValue_decimal (n : Nat) : digitsValue (decimal n) = n := by
  induction n using Nat.strongRecOn with
  | ind n ih =>
    rcases Nat.lt_or_ge n 10 with h | h
    · have hvalue := digitsValue_append [] (Nat.digitChar n)
      rw [digitChar_value h] at hvalue
      rw [decimal_lt h]
      exact hvalue.trans (Nat.zero_add n)
    · have hmod : n % 10 < 10 := Nat.mod_lt n (by decide)
      rw [decimal_ge h, digitsValue_append, ih (n / 10) (by omega), digitChar_value hmod]
      omega

/-- Only zero starts with a zero. -/
theorem head_decimal {n : Nat} (h : 0 < n) : (decimal n).head? ≠ some '0' := by
  induction n using Nat.strongRecOn with
  | ind n ih =>
    rcases Nat.lt_or_ge n 10 with hn | hn
    · rw [decimal_lt hn]
      exact (by decide : ∀ n < 10, 0 < n → [Nat.digitChar n].head? ≠ some '0') n hn h
    · have hdiv : 0 < n / 10 := by omega
      rw [decimal_ge hn, List.head?_append_of_ne_nil _ (decimal_ne _)]
      exact ih (n / 10) (by omega) hdiv

theorem integerValue_decimal (n : Nat) : integerValue (decimal n) = some n := by
  rcases Nat.eq_zero_or_pos n with rfl | h
  · rfl
  · unfold integerValue
    rw [if_neg (head_decimal h), digitsValue_decimal]

theorem subscript_decimal {n : Nat} (h : n < 9223372036854775808) : subscript (decimal n) = some (n : Int) :=
  subscript_of_value (List.all_eq_true.mpr (digit_decimal n)) (integerValue_decimal n) h

theorem numberText_decimal (n : Nat) : NumberText (decimal n) :=
  numberText_of_digits (decimal_ne n) (List.all_eq_true.mpr (digit_decimal n))

/-! ## The tokens of the function -/

/-- The assignments to the samples from `n` on. -/
def assignmentsText : Nat → List Text → Text
  | _, [] => []
  | n, x :: xs => "m->samples[".toList ++ decimal n ++ "]=".toList ++ x ++ ";\n".toList ++ assignmentsText (n + 1) xs

/-- The tokens of an assignment, without the semicolon. -/
def assignmentTokens (n : Nat) (e : List Lexeme) : List CTok :=
  [word "m", .punct "->", word "samples", .punct "[", .number (decimal n), .punct "]", .punct "="] ++ e.flatMap ctokens

def assignmentsTokens : Nat → List (List Lexeme) → List CTok
  | _, [] => []
  | n, e :: es => assignmentTokens n e ++ .punct ";" :: assignmentsTokens (n + 1) es

section Tokens
variable {e : List Lexeme} {es : List (List Lexeme)} {x T id : Text} {xs : List Text} {n : Nat}

theorem clex_newline (T : Text) : clex ('\n' :: T) = clex T := clex_space (Or.inr rfl) T

theorem clex_blank (T : Text) : clex (' ' :: T) = clex T := clex_space (Or.inl rfl) T

theorem clex_assignment (h : Compiles e x) (n : Nat) (T : Text) :
    clex ("m->samples[".toList ++ decimal n ++ "]=".toList ++ x ++ ";\n".toList ++ T) =
      assignmentTokens n e ++ .punct ";" :: clex T := by
  have htext : "m->samples[".toList ++ decimal n ++ "]=".toList ++ x ++ ";\n".toList ++ T =
      "m".toList ++ '-' :: '>' ::
        ("samples".toList ++ '[' :: (decimal n ++ ']' :: '=' :: (x ++ ';' :: '\n' :: T))) := by
    simp only [List.append_assoc]
    rfl
  have hequals : (x ++ ';' :: '\n' :: T).head? ≠ some '=' := by
    obtain ⟨c, s, rfl, hc⟩ := h.head
    intro heq
    cases heq
    rcases hc with hc | hc | hc | ⟨hc, -⟩ <;> exact absurd hc (by decide)
  have hunbracket : Stops numChar (']' :: '=' :: (x ++ ';' :: '\n' :: T)) := fun a ha => by cases ha; rfl
  have hbracket : Stops identChar ('[' :: (decimal n ++ ']' :: '=' :: (x ++ ';' :: '\n' :: T))) :=
    fun a ha => by cases ha; rfl
  rw [htext, clex_lit (c := 'm') (s := []) rfl rfl rfl (fun a ha => by cases ha; rfl), clex_arrow,
    clex_lit (c := 's') (s := "amples".toList) rfl rfl rfl hbracket, clex_bracket,
    clex_numberText (numberText_decimal n) hunbracket, clex_unbracket, clex_equals hequals,
    h.lexes ';' _ rfl, clex_semicolon, clex_newline]
  simp [assignmentTokens]

theorem clex_assignments (h : List.Forall₂ Compiles es xs) (n : Nat) (T : Text) :
    clex (assignmentsText n xs ++ T) = assignmentsTokens n es ++ clex T := by
  induction h generalizing n with
  | nil => rfl
  | @cons e x es xs hx _ ih =>
    unfold assignmentsText assignmentsTokens
    rw [List.append_assoc, clex_assignment hx, ih, List.append_assoc]
    rfl

theorem clex_comma (T : Text) : clex (',' :: T) = .punct "," :: clex T := clex_single rfl rfl T

theorem clex_brace (T : Text) : clex ('{' :: T) = .punct "\x7b" :: clex T := clex_single rfl rfl T

theorem clex_unbrace (T : Text) : clex ('}' :: T) = .punct "\x7d" :: clex T := clex_single rfl rfl T

/-- The lines before the assignments. -/
theorem clex_prologue (hid : id.head?.any isLetter = true ∧ id.all identChar = true) (T : Text) :
    clex ("\n".toList ++ "\nvoid ".toList ++ id ++ "(hmon m)\x7b\n".toList ++
      ("double * events  = hmonitor_get_events(m, m->last);\n".toList ++ T)) = prologue id ++ clex T := by
  obtain ⟨hhead, hall⟩ := hid
  cases id with
  | nil => cases hhead
  | cons c s =>
    have hs := (List.forall_mem_cons.mp (List.all_eq_true.mp hall)).2
    have htext : "\n".toList ++ "\nvoid ".toList ++ (c :: s) ++ "(hmon m)\x7b\n".toList ++
        ("double * events  = hmonitor_get_events(m, m->last);\n".toList ++ T) =
        '\n' :: '\n' :: ("void".toList ++ ' ' :: c :: (s ++ '(' :: ("hmon".toList ++ ' ' :: ("m".toList ++
          ')' :: '{' :: '\n' :: ("double".toList ++ ' ' :: '*' :: ' ' :: ("events".toList ++ ' ' :: ' ' :: '=' :: ' ' ::
          ("hmonitor_get_events".toList ++ '(' :: ("m".toList ++ ',' :: ' ' :: ("m".toList ++ '-' :: '>' ::
          ("last".toList ++ ')' :: ';' :: '\n' :: T)))))))))) := by
      simp only [List.append_assoc]
      rfl
    rw [htext, clex_newline, clex_newline,
      clex_lit (c := 'v') (s := "oid".toList) rfl rfl rfl (fun a ha => by cases ha; rfl), clex_blank,
      clex_word hhead hs (fun a ha => by cases ha; rfl), clex_open,
      clex_lit (c := 'h') (s := "mon".toList) rfl rfl rfl (fun a ha => by cases ha; rfl), clex_blank,
      clex_lit (c := 'm') (s := []) rfl rfl rfl (fun a ha => by cases ha; rfl), clex_close, clex_brace, clex_newline,
      clex_lit (c := 'd') (s := "ouble".toList) rfl rfl rfl (fun a ha => by cases ha; rfl), clex_blank,
      clex_star (by simp), clex_blank,
      clex_lit (c := 'e') (s := "vents".toList) rfl rfl rfl (fun a ha => by cases ha; rfl), clex_blank, clex_blank,
      clex_equals (by simp), clex_blank,
      clex_lit (c := 'h') (s := "monitor_get_events".toList) rfl rfl rfl (fun a ha => by cases ha; rfl), clex_open,
      clex_lit (c := 'm') (s := []) rfl rfl rfl (fun a ha => by cases ha; rfl), clex_comma, clex_blank,
      clex_lit (c := 'm') (s := []) rfl rfl rfl (fun a ha => by cases ha; rfl), clex_arrow,
      clex_lit (c := 'l') (s := "ast".toList) rfl rfl rfl (fun a ha => by cases ha; rfl), clex_close, clex_semicolon,
      clex_newline]
    rfl

theorem functionBody_prologue {declared : Text → Bool} (hd : declared id = false)
    (hk : id ∉ keywords.map String.toList) (ts : List CTok) : functionBody declared (prologue id ++ ts) = some ts :=
  if_pos ⟨rfl, hd, hk⟩

end Tokens

/-! ## A call of the function -/

section Run
variable {e : List Lexeme} {es : List (List Lexeme)} {id : Text} {xs : List Text} {n : Nat} {row : Int → ℚ}

theorem literalTokens_ne (u : Text) : ∀ t ∈ literalTokens u, t ≠ .punct ";" := by
  unfold literalTokens
  split_ifs <;> simp

theorem charToken_ne (c : Char) : charToken c ≠ .punct ";" := by
  unfold charToken
  split <;> simp

theorem ctokens_ne (l : Lexeme) : ∀ t ∈ ctokens l, t ≠ .punct ";" := by
  obtain ⟨k, u⟩ := l
  cases k with
  | var x =>
    intro t ht
    simp only [ctokens, List.mem_cons, List.mem_append, List.not_mem_nil, or_false] at ht
    rcases ht with rfl | rfl | ht | rfl
    · simp [word]
    · simp
    · exact literalTokens_ne _ t ht
    · simp
  | integer x => exact literalTokens_ne u
  | real x => exact literalTokens_ne u
  | char c => exact List.forall_mem_singleton.mpr (charToken_ne c)
  | _ => exact fun t ht => absurd ht List.not_mem_nil

theorem assignmentTokens_ne (n : Nat) (e : List Lexeme) : ∀ t ∈ assignmentTokens n e, t ≠ .punct ";" := by
  unfold assignmentTokens
  refine List.forall_mem_append.mpr ⟨by simp [word], fun t ht => ?_⟩
  obtain ⟨l, -, ht⟩ := List.mem_flatMap.mp ht
  exact ctokens_ne l t ht

theorem statements_append {ts : List CTok} (h : ∀ t ∈ ts, t ≠ .punct ";") (us : List CTok) :
    statements (ts ++ .punct ";" :: us) = (ts :: (statements us).1, (statements us).2) := by
  induction ts with
  | nil => simp [statements]
  | cons t ts ih =>
    obtain ⟨ht, hts⟩ := List.forall_mem_cons.mp h
    simp only [List.cons_append, statements, ih hts, if_neg ht]

def assignmentStatements : Nat → List (List Lexeme) → List (List CTok)
  | _, [] => []
  | n, e :: es => assignmentTokens n e :: assignmentStatements (n + 1) es

theorem statements_assignments (n : Nat) (es : List (List Lexeme)) :
    statements (assignmentsTokens n es ++ [.punct "\x7d"]) = (assignmentStatements n es, [.punct "\x7d"]) := by
  induction es generalizing n with
  | nil => rfl
  | cons e es ih =>
    unfold assignmentsTokens
    rw [List.append_assoc, List.cons_append, statements_append (assignmentTokens_ne n e), ih]
    rfl

/-- An assignment stores the value of its expression, if there is one. -/
theorem eval_assignment (hr : ∀ l ∈ e, Readable l) (hx : exact e = true) (hn : n < 9223372036854775808)
    (row : Int → ℚ) : ∃ v, evalStatement row (assignmentTokens n e) = some ((n : Int), v) ∧
      ∀ q, HasValue row e q → v = some q := by
  obtain ⟨ss, c, hss, hc, hvalue⟩ := value_of_exact hx row
  have hsymbols : csymbols (cReading row) (e.flatMap ctokens) = some ss := (csymbols_tokens hr).trans hss
  refine ⟨c.toDouble rationals, ?_, hvalue⟩
  unfold cReading at hsymbols
  simp only [assignmentTokens, List.cons_append, List.nil_append, evalStatement, if_true, subscript_decimal hn,
    Option.bind_some, hsymbols, hc, Option.map_some]

/-- The assignments to the samples from `n` on: the samples before are unchanged. -/
theorem eval_assignments (hr : ∀ e ∈ es, ∀ l ∈ e, Readable l) (hx : ∀ e ∈ es, exact e = true)
    (hn : n + es.length ≤ 9223372036854775808) (row : Int → ℚ) :
    ∃ stores, (assignmentStatements n es).mapM (evalStatement row) = some stores ∧
      (∀ (m : Int → Option ℚ) (i : Nat), i < n → stores.foldl store m i = m i) ∧
      ∀ (m : Int → Option ℚ) (i : Nat) e q, es[i]? = some e → HasValue row e q →
        stores.foldl store m ((n + i : Nat) : Int) = some q := by
  induction es generalizing n with
  | nil => exact ⟨[], rfl, fun _ _ _ => rfl, fun _ i _ _ h => by cases h⟩
  | cons e es ih =>
    obtain ⟨hre, hres⟩ := List.forall_mem_cons.mp hr
    obtain ⟨hxe, hxes⟩ := List.forall_mem_cons.mp hx
    rw [List.length_cons] at hn
    obtain ⟨v, hv, hvalue⟩ := eval_assignment hre hxe (show n < _ by omega) row
    obtain ⟨stores, hstores, hbefore, hfrom⟩ := ih hres hxes (show n + 1 + es.length ≤ _ by omega)
    refine ⟨((n : Int), v) :: stores, ?_, fun m i hi => ?_, fun m i e' q he hq => ?_⟩
    · simp only [assignmentStatements, List.mapM_cons, hv, hstores]
      rfl
    · rw [List.foldl_cons, hbefore _ i (by omega)]
      exact if_neg (by simp only; omega)
    · rw [List.foldl_cons]
      cases i with
      | zero =>
        cases he
        rw [Nat.add_zero, hbefore _ n (Nat.lt_succ_self n), ← hvalue q hq]
        exact if_pos rfl
      | succ i =>
        have hsum : n + (i + 1) = n + 1 + i := by omega
        rw [hsum]
        exact hfrom _ i e' q he hq

/-- What a call of the generated function stores. -/
theorem run_function {declared : Text → Bool} (hid : id.head?.any isLetter = true ∧ id.all identChar = true)
    (hk : id ∉ keywords.map String.toList) (hd : declared id = false) (hc : List.Forall₂ Compiles es xs)
    (row : Int → ℚ) (samples : Int → Option ℚ) :
    run declared (functionSource id (wrapReduction (assignmentsText 0 xs))) row samples =
      ((assignmentStatements 0 es).mapM (evalStatement row)).map fun stores => stores.foldl store samples := by
  have hsource : functionSource id (wrapReduction (assignmentsText 0 xs)) = headerLine ++ ("\n".toList ++
      "\nvoid ".toList ++ id ++ "(hmon m)\x7b\n".toList ++
        ("double * events  = hmonitor_get_events(m, m->last);\n".toList ++
          (assignmentsText 0 xs ++ "\x7d\n".toList))) := by
    have hinclude : "#include <hmon/hmonitor.h>\n\n".toList = headerLine ++ "\n".toList := by decide
    unfold functionSource wrapReduction
    rw [hinclude]
    simp only [List.append_assoc]
  have hbrace : clex "\x7d\n".toList = [.punct "\x7d"] := (clex_unbrace ['\n']).trans (by rw [clex_newline]; rfl)
  have hlex : clex ((functionSource id (wrapReduction (assignmentsText 0 xs))).drop headerLine.length) =
      prologue id ++ (assignmentsTokens 0 es ++ [.punct "\x7d"]) := by
    rw [hsource, List.drop_left, clex_prologue hid, clex_assignments hc, hbrace]
  have htake : (functionSource id (wrapReduction (assignmentsText 0 xs))).take headerLine.length = headerLine := by
    rw [hsource, List.take_left]
  unfold run
  rw [if_pos htake, hlex, functionBody_prologue hd hk, Option.bind_some, statements_assignments]
  rfl

end Run

/-! ## The text of an accepted list -/

section List
variable {ts rest : List Token} {f f' : Fields} {ls : List Lexeme}

theorem Derives.plain {s : Sym} {x : Text} (h : Derives s ts x) : ∀ t ∈ ts, t ≠ .char ',' ∧ t ≠ .char ';' := by
  have op : ∀ {us vs : List Token} {o : Char}, associativeOp o = true ∨ commutativeOp o = true →
      (∀ t ∈ us, t ≠ .char ',' ∧ t ≠ .char ';') → (∀ t ∈ vs, t ≠ .char ',' ∧ t ≠ .char ';') →
      ∀ t ∈ us ++ .char o :: vs, t ≠ .char ',' ∧ t ≠ .char ';' := by
    intro us vs o ho hus hvs
    refine List.forall_mem_append.mpr ⟨hus, List.forall_mem_cons.mpr ⟨?_, hvs⟩⟩
    rcases op_cases ho with rfl | rfl | rfl | rfl <;> decide
  induction h with
  | var s => simp
  | integer s => simp
  | real s => simp
  | paren _ ih =>
    exact List.forall_mem_append.mpr
      ⟨List.forall_mem_cons.mpr ⟨by decide, ih⟩, List.forall_mem_singleton.mpr (by decide)⟩
  | terms _ ho _ ihl ihr => exact op (Or.inl ho) ihl ihr
  | associative _ ho _ ihl ihr => exact op (Or.inl ho) ihl ihr
  | ofTerm _ ih => exact ih
  | ofAssociative _ ih => exact ih
  | associatives _ ho _ ihl ihr => exact op (Or.inr ho) ihl ihr
  | commutative _ ho _ ihl ihr => exact op (Or.inr ho) ihl ihr

/-- A list without separators, up to one. -/
theorem cut_append {e : List Lexeme} (he : ∀ l ∈ e, l.1 ≠ .char ',' ∧ l.1 ≠ .char ';') {k : Lexeme} {c : Char}
    (hk : k.1 = .char c) (hc : c = ',' ∨ c = ';') (ls : List Lexeme) :
    cut (e ++ k :: ls) = e :: if c = ';' then [] else cut ls := by
  induction e with
  | nil =>
    rcases hc with rfl | rfl
    · rw [List.nil_append, cut, hk, if_neg (by decide), if_pos rfl, if_neg (by decide)]
    · rw [List.nil_append, cut, hk, if_pos rfl, if_pos rfl]
  | cons l e ih =>
    obtain ⟨⟨hcomma, hsemi⟩, he⟩ := List.forall_mem_cons.mp he
    simp only [List.cons_append, cut, if_neg hsemi, if_neg hcomma, ih he]

theorem assignement_eq (h : assignement f ts = some (f', rest)) : ∃ n us x, ts = .name n :: .char '=' :: (us ++ rest) ∧
    Derives .commutativeExpr us x ∧ (∃ c, (c = ',' ∨ c = ';') ∧ rest.head? = some (.char c)) ∧
      f' = { f with
        reductionCode := some (f.reductionCode.getD [] ++ "m->samples[".toList ++ decimal f.reductions.length ++
          "]=".toList ++ x ++ ";\n".toList)
        reductions := f.reductions ++ [n] } := by
  unfold assignement at h
  split at h
  · rename_i n us
    split at h
    · rename_i x ts' hexpr
      cases h
      obtain ⟨us₁, rfl, hd, hc⟩ := commExpr_iff.mp hexpr
      exact ⟨n, us₁, x, rfl, hd, hc, rfl⟩
    · cases h
  · cases h

theorem assignmentsText_cons (code x : Text) (n : Nat) (xs : List Text) :
    code ++ "m->samples[".toList ++ decimal n ++ "]=".toList ++ x ++ ";\n".toList ++ assignmentsText (n + 1) xs =
      code ++ assignmentsText n (x :: xs) := by
  have htext : assignmentsText n (x :: xs) =
      "m->samples[".toList ++ decimal n ++ "]=".toList ++ x ++ ";\n".toList ++ assignmentsText (n + 1) xs := rfl
  rw [htext]
  generalize "m->samples[".toList = a
  generalize "]=".toList = b
  generalize ";\n".toList = c
  simp only [List.append_assoc]

/-- The code for a list is the assignments of its derived texts. -/
theorem assignments_of_list {fuel : Nat} (h : sepBy assignement comma fuel f (ls.map Prod.fst) = some (f', rest)) :
    ∃ xs, f'.reductionCode = some (f.reductionCode.getD [] ++ assignmentsText f.reductions.length xs) ∧
      List.Forall₂ (fun e x => Derives .commutativeExpr (e.map Prod.fst) x ∧ ∀ l ∈ e, l ∈ ls)
        ((cut ls).map (List.drop 2)) xs := by
  induction fuel generalizing f ls with
  | zero => cases h
  | succ fuel ih =>
    obtain ⟨f₁, ts₁, hitem, hrest⟩ := sepBy_step h
    obtain ⟨n, us, x, hts, hd, ⟨c, hc, hhead⟩, hf₁⟩ := assignement_eq hitem
    have hcode₁ : f₁.reductionCode = some (f.reductionCode.getD [] ++ "m->samples[".toList ++
        decimal f.reductions.length ++ "]=".toList ++ x ++ ";\n".toList) := by rw [hf₁]
    have hlen : f₁.reductions.length = f.reductions.length + 1 := by
      rw [hf₁]
      exact List.length_append
    clear hf₁ hitem
    -- the lexemes: a name, an equals sign, the expression, and what starts with the separator
    obtain ⟨l₁, ls₁, rfl, h₁, hts⟩ := List.map_eq_cons_iff.mp hts
    obtain ⟨l₂, ls₂, rfl, h₂, hts⟩ := List.map_eq_cons_iff.mp hts
    obtain ⟨e, ls₃, rfl, rfl, rfl⟩ := List.map_eq_append_iff.mp hts
    cases ls₃ with
    | nil => cases hhead
    | cons k ls₄ =>
      have hk : k.1 = .char c := Option.some.inj hhead
      have hplain : ∀ l ∈ l₁ :: l₂ :: e, l.1 ≠ .char ',' ∧ l.1 ≠ .char ';' := by
        refine List.forall_mem_cons.mpr
          ⟨by rw [h₁]; simp, List.forall_mem_cons.mpr ⟨by rw [h₂]; decide, fun l hl => ?_⟩⟩
        exact hd.plain l.1 (List.mem_map_of_mem hl)
      have hcut := cut_append hplain hk hc ls₄
      have hmem : ∀ l ∈ e, l ∈ l₁ :: l₂ :: (e ++ k :: ls₄) := fun l hl => by simp [hl]
      simp only [List.cons_append] at hcut
      rw [hcut, List.map_cons]
      rw [List.map_cons, hk] at hrest
      rcases hc with rfl | rfl
      · rcases hrest with ⟨hn, -⟩ | ⟨ts₂, hn, hmore⟩
        · cases hn
        · cases hn
          obtain ⟨xs, hcode, hxs⟩ := ih hmore
          refine ⟨x :: xs, ?_, .cons ⟨hd, hmem⟩ (hxs.imp fun e' x' h' => ⟨h'.1, fun l hl => ?_⟩)⟩
          · rw [hcode, hcode₁, hlen]
            exact congrArg some (assignmentsText_cons _ x _ xs)
          · have := h'.2 l hl
            simp [this]
      · rcases hrest with ⟨-, hb⟩ | ⟨ts₂, hn, -⟩
        · cases hb
          refine ⟨[x], ?_, .cons ⟨hd, hmem⟩ .nil⟩
          rw [hcode₁]
          exact congrArg some ((List.append_nil _).symm.trans (assignmentsText_cons _ x _ []))
        · cases hn

end List

/-! ## Meaning -/

theorem symbols_of_exact {e : List Lexeme} (h : exact e = true) :
    ∀ l ∈ e, (lexemeSymbols exactReading l).isSome = true := by
  obtain ⟨k, hk⟩ := Option.isSome_iff_exists.mp h
  obtain ⟨ss, hss, -⟩ := Option.bind_eq_some_iff.mp hk
  clear h hk
  induction e generalizing ss with
  | nil => exact fun l hl => absurd hl List.not_mem_nil
  | cons l e ih =>
    obtain ⟨s₁, h₁, hss⟩ := Option.bind_eq_some_iff.mp hss
    obtain ⟨s₂, h₂, -⟩ := Option.map_eq_some_iff.mp hss
    exact List.forall_mem_cons.mpr ⟨Option.isSome_iff_exists.mpr ⟨s₁, h₁⟩, ih s₂ h₂⟩

section Meaning
variable {id s : Text} {f f' : Fields} {rest : List Token}

/-- What a call of the function for an accepted list stores. -/
theorem run_list (declared : Text → Bool) (hcode : f.reductionCode = .none) (hred : f.reductions = [])
    (h : assignementList f (scan s) = some (f', rest)) (hid : id.head?.any isLetter = true ∧ id.all identChar = true)
    (hk : id ∉ keywords.map String.toList) (hd : declared id = false)
    (hvars : ∀ e ∈ expressions s, ∀ l ∈ e, variableOk l = true) (hapart : ∀ e ∈ expressions s, apart e = true)
    (hsymbols : ∀ e ∈ expressions s, ∀ l ∈ e, (lexemeSymbols exactReading l).isSome = true) :
    (∀ e ∈ expressions s, ∀ l ∈ e, Readable l) ∧ ∃ code, f'.reductionCode = some code ∧ ∀ row samples,
      run declared (functionSource id (wrapReduction code)) row samples =
        ((assignmentStatements 0 (expressions s)).mapM (evalStatement row)).map fun stores =>
          stores.foldl store samples := by
  rw [← lexemes_tokens] at h
  obtain ⟨xs, hxs, hderives⟩ := assignments_of_list h
  rw [hcode, hred] at hxs
  have hpairs : List.Forall₂ (fun e x => e ∈ expressions s ∧ Derives .commutativeExpr (e.map Prod.fst) x ∧
      ∀ l ∈ e, l ∈ lexemes s) (expressions s) xs :=
    (List.forall₂_and_left _ _).mpr ⟨fun e he => he, hderives⟩
  have hboth : List.Forall₂ (fun e x => (∀ l ∈ e, Readable l) ∧ Compiles e x) (expressions s) xs := by
    refine hpairs.imp fun e x h' => ?_
    obtain ⟨he, hd, hmem⟩ := h'
    have hread : ∀ l ∈ e, Readable l := fun l hl => ⟨origin_of_mem (hmem l hl), hvars e he l hl, hsymbols e he l hl⟩
    exact ⟨hread, hd.compiles rfl hread (apart_iff.mp (hapart e he))⟩
  obtain ⟨hreadable, hcompiles⟩ := (List.forall₂_and_left _ _).mp hboth
  exact ⟨hreadable, assignmentsText 0 xs, hxs, run_function hid hk hd hcompiles⟩

/-- **The compiled reduction means what the assignment list says**, under the condition. -/
theorem preservesMeaning {declared : Text → Bool} (hcode : f.reductionCode = .none) (hred : f.reductions = [])
    (h : assignementList f (scan s) = some (f', rest)) (hf : Faithful declared id (expressions s)) :
    ∃ code, f'.reductionCode = some code ∧ PreservesMeaning declared id (wrapReduction code) (expressions s) := by
  obtain ⟨hread, code, hcode', hrun⟩ := run_list declared hcode hred h hf.identifier hf.notKeyword hf.undeclared
    hf.vars hf.apart fun e he => symbols_of_exact (hf.exact e he)
  have hcount : 0 + (expressions s).length ≤ 9223372036854775808 := by
    have := hf.count
    omega
  refine ⟨code, hcode', fun row samples => ?_⟩
  obtain ⟨stores, hstores, -, hfrom⟩ := eval_assignments hread hf.exact hcount row
  refine ⟨stores.foldl store samples, by rw [hrun, hstores, Option.map_some], fun i e v he hv => ?_⟩
  have hi := hfrom samples i e v he hv
  rwa [Nat.zero_add] at hi

end Meaning

def weightedList : Text := "a=$0*2+1.5;".toList

theorem weighted_preserved : ∃ f' rest code, assignementList .reset (scan weightedList) = some (f', rest) ∧
    f'.reductionCode = some code ∧
      PreservesMeaning (fun _ => false) "ratio".toList (wrapReduction code) (expressions weightedList) := by
  have hsome : (assignementList .reset (scan weightedList)).isSome = true := by decide +kernel
  obtain ⟨⟨f', rest⟩, h⟩ := Option.isSome_iff_exists.mp hsome
  have hexprs : expressions weightedList = [[(.var "events[0]\n".toList, ['$', '0']), (.char '*', ['*']),
      (.integer ['2'], ['2']), (.char '+', ['+']), (.real ['1', '.', '5'], ['1', '.', '5'])]] := by decide +kernel
  have hf : Faithful (fun _ => false) "ratio".toList (expressions weightedList) := by
    rw [hexprs]
    exact ⟨by decide +kernel, by decide +kernel, rfl, by decide, by decide +kernel, by decide +kernel,
      by decide +kernel⟩
  obtain ⟨code, hcode, hmeaning⟩ := preservesMeaning rfl rfl h hf
  exact ⟨f', rest, code, h, hcode, hmeaning⟩

def halfList : Text := "a=1/2;".toList

/-- `a=1/2` stores zero: the quotient of C's integers is truncated. -/
theorem half_not_preserved : ∃ f' rest code, assignementList .reset (scan halfList) = some (f', rest) ∧
    f'.reductionCode = some code ∧
      ¬ PreservesMeaning (fun _ => false) "ratio".toList (wrapReduction code) (expressions halfList) := by
  have hsome : (assignementList .reset (scan halfList)).isSome = true := by decide +kernel
  obtain ⟨⟨f', rest⟩, h⟩ := Option.isSome_iff_exists.mp hsome
  have hexprs : expressions halfList = [[(.integer ['1'], ['1']), (.char '/', ['/']), (.integer ['2'], ['2'])]] := by
    decide +kernel
  have hid : "ratio".toList.head?.any isLetter = true ∧ "ratio".toList.all identChar = true := by decide +kernel
  have hk : "ratio".toList ∉ keywords.map String.toList := by decide +kernel
  have hchecks : (∀ e ∈ expressions halfList, ∀ l ∈ e, variableOk l = true) ∧
      (∀ e ∈ expressions halfList, apart e = true) ∧
        ∀ e ∈ expressions halfList, ∀ l ∈ e, (lexemeSymbols exactReading l).isSome = true := by
    rw [hexprs]
    decide +kernel
  obtain ⟨-, code, hcode, heval⟩ := run_list (fun _ => false) rfl rfl h hid hk rfl hchecks.1
    hchecks.2.1 hchecks.2.2
  refine ⟨f', rest, code, h, hcode, fun hmeaning => ?_⟩
  obtain ⟨samples', hrun, hvalues⟩ := hmeaning (fun _ => 0) (fun _ => .none)
  rw [heval] at hrun
  rw [hexprs] at hrun hvalues
  have hstored :
      (((assignmentStatements 0 [[(.integer ['1'], ['1']), (.char '/', ['/']), (.integer ['2'], ['2'])]]).mapM
      (evalStatement fun _ => 0)).map fun stores => stores.foldl store fun _ => .none).map (· 0) = some (some 0) := by
    decide +kernel
  have hsymbols : exprSymbols ⟨decimalConstant, fun _ => (0 : ℚ)⟩
      [(.integer ['1'], ['1']), (.char '/', ['/']), (.integer ['2'], ['2'])] =
        some [.operand 1, .op .div, .operand 2] := by
    have h₁ : decimalConstant ['1'] = some 1 := by decide +kernel
    have h₂ : decimalConstant ['2'] = some 2 := by decide +kernel
    simp [exprSymbols, lexemeSymbols, literalSymbols, unsigned, charSymbol, h₁, h₂]
  have hmeans : Means ratArith .expr [.operand 1, .op .div, .operand 2] (1 / 2 : ℚ) :=
    .ofTerm (.term (.ofFactor (.operand 1)) (.operand 2) rfl rfl)
  have hvalue : samples' 0 = some (1 / 2) := hvalues 0 _ _ rfl ⟨_, hsymbols, hmeans⟩
  rw [hrun, Option.map_some] at hstored
  rw [Option.some.inj hstored] at hvalue
  exact absurd (Option.some.inj hvalue) (by decide +kernel)

end Hmon.Config
