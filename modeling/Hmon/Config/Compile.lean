import Hmon.Config.Meaning

/-!
# The generated file

* `Origin` : what the scanner's rules say of a token and its lexeme;
* `ctokens` : the C tokens of a lexeme; `Compiles` : the text of an expression is read as these by C, before anything
  that stands behind an expression; `Derives.compiles` : so is the text of every derivable expression;
* `csymbols_tokens` : the C tokens of an expression have its operands and operators.
-/

namespace Hmon.Config
open Lib Lib.Regex Lib.Precedence

/-! ## Lexemes -/

/-- A token with a lexeme that it can come from. -/
def Origin (u : Text) : Token → Prop
  | .var x => u ∈ var.lang ∧ x = varToReference u
  | .integer x => u ∈ integer.lang ∧ x = u
  | .real x => u ∈ real.lang ∧ x = u
  | .char c => u = [c]
  | _ => True

theorem rules_origin : ∀ r ∈ rules, ∀ u ∈ r.regex.lang, ∀ t ∈ r.action u, Origin u t := by
  unfold rules
  simp only [List.forall_mem_cons, List.not_mem_nil, IsEmpty.forall_iff, implies_true, and_true]
  and_intros
  all_goals intro u hu t ht
  all_goals cases ht
  all_goals first
    | exact trivial
    | exact ⟨hu, rfl⟩
    | exact mem_chr.mp hu

theorem origin_of_mem {s u : Text} {t : Token} (h : (t, u) ∈ lexemes s) : Origin u t := by
  obtain ⟨r, hr, v, hv, hact⟩ := Lexer.mem_scan h
  obtain ⟨q, hq, rfl⟩ := List.mem_map.mp hr
  obtain ⟨t', ht', he⟩ := Option.map_eq_some_iff.mp (show (q.action v).map (fun t => (t, v)) = some (t, u) from hact)
  cases he
  exact rules_origin q hq u hv t ht'

/-! ## Literals -/

section Literal
variable {n u s T : Text} {c : Char}

/-- A number that C reads up to a character that is not of one. -/
def NumberText (n : Text) : Prop :=
  ∃ c u, n = c :: u ∧ digit c = true ∧ u ∈ numberTail.lang ∧ ∀ a ∈ n.getLast?, expLetter a = false

theorem clex_numberText (h : NumberText n) (hT : Stops numChar T) : clex (n ++ T) = .number n :: clex T := by
  obtain ⟨c, u, rfl, hc, hu, hlast⟩ := h
  exact clex_number hc (mem_number hc hu) hlast hT

theorem digit_not_expLetter (h : digit c = true) : expLetter c = false :=
  (by decide : ∀ c ∈ ['0', '1', '2', '3', '4', '5', '6', '7', '8', '9'], expLetter c = false) c (digit_cases h)

theorem mem_tail_digits (h : ∀ a ∈ s, digit a = true) : s ∈ numberTail.lang :=
  mem_tail fun a ha => digit_numChar (h a ha)

theorem last_append {p : Char → Prop} (hu : ∀ a ∈ u.getLast?, p a) (hs : ∀ a ∈ s.getLast?, p a) :
    ∀ a ∈ (u ++ s).getLast?, p a := by
  intro a ha
  rw [List.getLast?_append] at ha
  cases h : s.getLast? with
  | none =>
    rw [h] at ha
    exact hu a ha
  | some b =>
    rw [h] at ha
    exact hs a (h.trans ha)

theorem last_digits (h : ∀ a ∈ s, digit a = true) : ∀ a ∈ s.getLast?, expLetter a = false :=
  fun a ha => digit_not_expLetter (h a (List.mem_of_getLast? ha))

theorem expLetter_of_isExp (h : isExp c = true) : expLetter c = true := by
  unfold expLetter
  rw [h]
  rfl

/-- What stands behind the digits of a decimal constant. -/
theorem tail_of_exponent {x q : ℚ} (h : applyExponent x s = some q) :
    s ∈ numberTail.lang ∧ ∀ a ∈ s.getLast?, expLetter a = false := by
  cases s with
  | nil => exact ⟨Language.nil_mem_kstar _, by simp⟩
  | cons e s =>
    simp only [applyExponent] at h
    obtain ⟨he, h⟩ := Option.ite_none_right_eq_some.mp h
    have hexp := expLetter_of_isExp he
    have hsigned : ∀ {d : Char} {ds : Text}, isSign d = true → ds ≠ [] ∧ ds.all digit = true →
        e :: d :: ds ∈ numberTail.lang ∧ ∀ a ∈ (e :: d :: ds).getLast?, expLetter a = false := by
      intro d ds hd hds
      have hdigits := List.all_eq_true.mp hds.2
      refine ⟨mem_tail_append (mem_tail_exponent hexp hd) (mem_tail_digits hdigits), ?_⟩
      rw [List.getLast?_cons_cons, List.getLast?_cons_of_ne_nil hds.1]
      exact last_digits hdigits
    split at h
    · exact hsigned rfl (Option.ite_none_right_eq_some.mp h).1
    · exact hsigned rfl (Option.ite_none_right_eq_some.mp h).1
    · obtain ⟨hne, hds⟩ := (Option.ite_none_right_eq_some.mp h).1
      have hdigits := List.all_eq_true.mp hds
      refine ⟨mem_tail_append (mem_tail (u := [e]) ?_) (mem_tail_digits hdigits), ?_⟩
      · exact List.forall_mem_singleton.mpr (expLetter_numChar hexp)
      · rw [List.getLast?_cons_of_ne_nil hne]
        exact last_digits hdigits

/-- The digits before the point, without the first. -/
theorem numberText_of_tail (hc : digit c = true) {int : Text} (hint : ∀ a ∈ int, digit a = true)
    (hs : s ∈ numberTail.lang) (hlast : ∀ a ∈ s.getLast?, expLetter a = false) : NumberText (c :: int ++ s) :=
  ⟨c, int ++ s, rfl, hc, mem_tail_append (mem_tail_digits hint) hs,
    last_append (last_digits (List.forall_mem_cons.mpr ⟨hc, hint⟩)) hlast⟩

theorem numberText_of_decimal (hc : digit c = true) {q : ℚ} (h : decimalConstant (c :: u) = some q) :
    NumberText (c :: u) := by
  have htake : (c :: u).takeWhile digit = c :: u.takeWhile digit := by rw [List.takeWhile_cons, if_pos hc]
  have hint : ∀ a ∈ u.takeWhile digit, digit a = true := fun a ha => List.mem_takeWhile_imp ha
  have hsplit : c :: u = c :: u.takeWhile digit ++ (c :: u).dropWhile digit := by
    rw [← htake, List.takeWhile_append_dropWhile]
  rw [hsplit]
  simp only [decimalConstant, htake] at h
  split at h
  · rename_i s hs
    rw [hs]
    obtain ⟨-, h⟩ := Option.ite_none_left_eq_some.mp h
    obtain ⟨hmem, hlast⟩ := tail_of_exponent h
    have hfrac : ∀ a ∈ s.takeWhile digit, digit a = true := fun a ha => List.mem_takeWhile_imp ha
    have hs : '.' :: s = ['.'] ++ (s.takeWhile digit ++ s.dropWhile digit) := by
      rw [List.takeWhile_append_dropWhile]
      rfl
    rw [hs]
    refine numberText_of_tail hc hint ?_ ?_
    · exact mem_tail_append (mem_tail (by simp; rfl)) (mem_tail_append (mem_tail_digits hfrac) hmem)
    · exact last_append (by simp; rfl) (last_append (last_digits hfrac) hlast)
  · obtain ⟨-, h⟩ := Option.ite_none_left_eq_some.mp h
    obtain ⟨hmem, hlast⟩ := tail_of_exponent h
    exact numberText_of_tail hc hint hmem hlast

theorem numberText_of_digits (hne : n ≠ []) (h : n.all digit = true) : NumberText n := by
  cases n with
  | nil => exact absurd rfl hne
  | cons c u =>
    obtain ⟨hc, hu⟩ := List.forall_mem_cons.mp (List.all_eq_true.mp h)
    exact ⟨c, u, rfl, hc, mem_tail_digits hu, last_digits (List.forall_mem_cons.mpr ⟨hc, hu⟩)⟩

theorem unsigned_digit (hc : digit c = true) (s : Text) : unsigned (c :: s) = c :: s := by
  unfold unsigned
  split
  · rename_i h
    obtain ⟨rfl, -⟩ := List.cons.inj h
    cases hc
  · rfl

theorem mem_integer (h : u ∈ integer.lang) :
    ∃ c s, digit c = true ∧ (∀ a ∈ s, digit a = true) ∧ (u = c :: s ∨ u = '-' :: c :: s) := by
  obtain ⟨x, hx, y, hy, rfl⟩ := mem_seq.mp h
  obtain ⟨hne, hdigits⟩ := mem_plus_cls.mp hy
  cases y with
  | nil => exact absurd rfl hne
  | cons c s =>
    obtain ⟨hc, hs⟩ := List.forall_mem_cons.mp hdigits
    refine ⟨c, s, hc, hs, ?_⟩
    rcases mem_opt.mp hx with rfl | hx
    · exact Or.inl rfl
    · rw [mem_chr.mp hx]
      exact Or.inr rfl

theorem unsigned_integer (h : u ∈ integer.lang) : unsigned u ≠ [] ∧ ∀ a ∈ unsigned u, digit a = true := by
  obtain ⟨c, s, hc, hs, rfl | rfl⟩ := mem_integer h
  · rw [unsigned_digit hc]
    exact ⟨List.cons_ne_nil c s, List.forall_mem_cons.mpr ⟨hc, hs⟩⟩
  · exact ⟨List.cons_ne_nil c s, List.forall_mem_cons.mpr ⟨hc, hs⟩⟩

/-- A literal may have two signs. -/
theorem unsigned_real (h : u ∈ real.lang) : ∃ c s, unsigned u = c :: s ∧ (digit c = true ∨ c = '-') := by
  obtain ⟨x, hx, y, hy, rfl⟩ := mem_seq.mp h
  obtain ⟨i, hi, w, -, rfl⟩ := mem_seq.mp hy
  obtain ⟨c, s, hc, -, hi⟩ := mem_integer hi
  rcases mem_opt.mp hx with rfl | hx
  · rcases hi with rfl | rfl
    · exact ⟨c, s ++ w, unsigned_digit hc _, Or.inl hc⟩
    · exact ⟨c, s ++ w, rfl, Or.inl hc⟩
  · rw [mem_chr.mp hx]
    rcases hi with rfl | rfl
    · exact ⟨c, s ++ w, rfl, Or.inl hc⟩
    · exact ⟨'-', c :: (s ++ w), rfl, Or.inr rfl⟩

theorem decimalConstant_minus (s : Text) : decimalConstant ('-' :: s) = .none := rfl

/-- A literal of an exact expression. -/
theorem numberText_unsigned (hu : u ∈ integer.lang ∨ u ∈ real.lang)
    (h : (exactReading.constant (unsigned u)).isSome = true) : NumberText (unsigned u) := by
  have hhead : ∃ c s, unsigned u = c :: s ∧ (digit c = true ∨ c = '-') := by
    rcases hu with hu | hu
    · obtain ⟨hne, hdigits⟩ := unsigned_integer hu
      cases hs : unsigned u with
      | nil => exact absurd hs hne
      | cons c s => exact ⟨c, s, rfl, Or.inl (hdigits c (by rw [hs]; exact List.mem_cons_self))⟩
    · exact unsigned_real hu
  obtain ⟨c, s, hs, hc⟩ := hhead
  rw [hs] at h ⊢
  obtain ⟨k, hk⟩ := Option.isSome_iff_exists.mp h
  simp only [exactReading] at hk
  by_cases hdigits : (c :: s).all digit = true
  · exact numberText_of_digits (List.cons_ne_nil c s) hdigits
  · rw [if_neg hdigits] at hk
    obtain ⟨q, hq, -⟩ := Option.map_eq_some_iff.mp hk
    rcases hc with hc | rfl
    · exact numberText_of_decimal hc hq
    · rw [decimalConstant_minus] at hq
      cases hq

theorem sign_unsigned (u : Text) :
    (u.head? = some '-' → u = '-' :: unsigned u) ∧ (u.head? ≠ some '-' → unsigned u = u) := by
  unfold unsigned
  split
  · exact ⟨fun _ => rfl, fun h => absurd rfl h⟩
  · rename_i hne
    refine ⟨fun h => ?_, fun _ => rfl⟩
    cases u with
    | nil => cases h
    | cons c s =>
      cases h
      exact absurd rfl (hne s)

end Literal

/-! ## The C tokens of an expression -/

def literalTokens (u : Text) : List CTok :=
  if u.head? = some '-' then [.punct "-", .number (unsigned u)] else [.number (unsigned u)]

def charToken : Char → CTok
  | '(' => .punct "("
  | ')' => .punct ")"
  | '+' => .punct "+"
  | '-' => .punct "-"
  | '*' => .punct "*"
  | '/' => .punct "/"
  | c => .other [c]

def ctokens : Lexeme → List CTok
  | (.var _, u) => word "events" :: .punct "[" :: (literalTokens (u.drop 1) ++ [.punct "]"])
  | (.integer _, u) => literalTokens u
  | (.real _, u) => literalTokens u
  | (.char c, _) => [charToken c]
  | _ => []

/-- What may stand behind an expression. -/
def ends (c : Char) : Bool := associativeOp c || commutativeOp c || c == ')' || c == ';'

theorem ends_cases {c : Char} (h : ends c = true) : c ∈ ['+', '-', '*', '/', ')', ';'] := by
  simpa [ends, associativeOp, commutativeOp, or_assoc] using h

/-- C reads the text `x` as the tokens of `e`, and it starts with a minus sign only if `e` does. -/
structure Compiles (e : List Lexeme) (x : Text) : Prop where
  lexes : ∀ c T, ends c = true → clex (x ++ c :: T) = e.flatMap ctokens ++ clex (c :: T)
  head : ∃ c s, x = c :: s ∧ (c = 'e' ∨ c = '(' ∨ digit c = true ∨ c = '-' ∧ ∃ l ∈ e.head?, l.2.head? = some '-')

section Compiles
variable {e e' : List Lexeme} {x y u T : Text} {c : Char}

theorem ends_not_numChar (h : ends c = true) (T : Text) : Stops numChar (c :: T) := by
  intro a ha
  cases ha
  exact (by decide : ∀ a ∈ ['+', '-', '*', '/', ')', ';'], numChar a = false) c (ends_cases h)

theorem clex_open (T : Text) : clex ('(' :: T) = .punct "(" :: clex T := clex_single rfl rfl T

theorem clex_close (T : Text) : clex (')' :: T) = .punct ")" :: clex T := clex_single rfl rfl T

theorem clex_bracket (T : Text) : clex ('[' :: T) = .punct "[" :: clex T := clex_single rfl rfl T

theorem clex_unbracket (T : Text) : clex (']' :: T) = .punct "]" :: clex T := clex_single rfl rfl T

theorem clex_semicolon (T : Text) : clex (';' :: T) = .punct ";" :: clex T := clex_single rfl rfl T

theorem clex_literal (h : NumberText (unsigned u)) (hT : Stops numChar T) :
    clex (u ++ T) = literalTokens u ++ clex T := by
  unfold literalTokens
  split_ifs with hsign
  · have hu := (sign_unsigned u).1 hsign
    have hhead : ∀ a, a ∈ ['-', '=', '>'] → (unsigned u ++ T).head? ≠ some a := by
      intro a ha hhead
      obtain ⟨d, s, hn, hd, -⟩ := h
      rw [hn] at hhead
      cases hhead
      exact absurd hd ((by decide : ∀ a ∈ ['-', '=', '>'], ¬ digit a = true) a ha)
    have htext : u ++ T = '-' :: (unsigned u ++ T) := congrArg (· ++ T) hu
    rw [htext, clex_minus (hhead '-' (by simp)) (hhead '=' (by simp)) (hhead '>' (by simp)), clex_numberText h hT]
    rfl
  · have hclex := clex_numberText h hT
    rw [(sign_unsigned u).2 hsign] at hclex ⊢
    exact hclex

theorem head_literal (h : NumberText (unsigned u)) (t : Token) : ∃ c s, u = c :: s ∧
    (c = 'e' ∨ c = '(' ∨ digit c = true ∨ c = '-' ∧ ∃ l ∈ ([(t, u)] : List Lexeme).head?, l.2.head? = some '-') := by
  by_cases hsign : u.head? = some '-'
  · exact ⟨'-', unsigned u, (sign_unsigned u).1 hsign, Or.inr (Or.inr (Or.inr ⟨rfl, (t, u), rfl, hsign⟩))⟩
  · rw [(sign_unsigned u).2 hsign] at h
    obtain ⟨c, s, hu, hc, -⟩ := h
    exact ⟨c, s, hu, Or.inr (Or.inr (Or.inl hc))⟩

theorem compiles_literal {t : Token} (ht : ctokens (t, u) = literalTokens u) (h : NumberText (unsigned u)) :
    Compiles [(t, u)] u where
  lexes c T hc := by
    rw [List.flatMap_singleton, ht]
    exact clex_literal h (ends_not_numChar hc T)
  head := head_literal h t

/-- The text of a short variable is not cut; the last character may be. -/
theorem varToReference_eq {k : Text} (h : k.length ≤ 7) : ∃ l, (l = [] ∨ l = ['\n']) ∧
    varToReference ('$' :: k) = "events".toList ++ '[' :: (k ++ ']' :: l) := by
  have htake : ∀ n, ['\n'].take n = [] ∨ ['\n'].take n = ['\n'] := by
    intro n
    cases n with
    | zero => exact Or.inl rfl
    | succ n => exact Or.inr (by simp)
  refine ⟨['\n'].take (15 - (8 + k.length)), htake _, ?_⟩
  have htext : "events[".toList ++ k ++ "]\n".toList = ("events[".toList ++ k ++ [']']) ++ ['\n'] :=
    (List.append_assoc _ [']'] ['\n']).symm
  have hlen : ("events[".toList ++ k ++ [']']).length = 8 + k.length := by
    simp only [List.length_append, List.length_singleton]
    show 7 + k.length + 1 = _
    omega
  unfold varToReference
  rw [List.drop_succ_cons, List.drop_zero, htext, List.take_append, hlen, List.take_of_length_le (by omega)]
  simp

theorem clex_lit {w : String} {c : Char} {s : Text} (hw : w.toList = c :: s) (hc : isLetter c = true)
    (hs : s.all identChar = true) (hT : Stops identChar T) : clex (w.toList ++ T) = word w :: clex T := by
  unfold word
  rw [hw]
  exact clex_word hc (List.all_eq_true.mp hs) hT

theorem compiles_var {k t : Text} (hk : k ∈ integer.lang) (hlen : k.length ≤ 7) :
    Compiles [(.var t, '$' :: k)] (varToReference ('$' :: k)) := by
  obtain ⟨l, hl, htext⟩ := varToReference_eq hlen
  obtain ⟨hne, hdigits⟩ := unsigned_integer hk
  have hnumber : NumberText (unsigned k) := numberText_of_digits hne (List.all_eq_true.mpr hdigits)
  rw [htext]
  refine ⟨fun c T hc => ?_, ⟨'e', _, rfl, Or.inl rfl⟩⟩
  have hspace : clex (l ++ c :: T) = clex (c :: T) := by
    rcases hl with rfl | rfl
    · rfl
    · exact clex_space (Or.inr rfl) _
  have happend : "events".toList ++ '[' :: (k ++ ']' :: l) ++ c :: T =
      "events".toList ++ '[' :: (k ++ ']' :: (l ++ c :: T)) := by simp
  have hstop : Stops identChar ('[' :: (k ++ ']' :: (l ++ c :: T))) := fun a ha => by cases ha; rfl
  have hstop' : Stops numChar (']' :: (l ++ c :: T)) := fun a ha => by cases ha; rfl
  rw [happend, clex_lit (c := 'e') (s := "vents".toList) rfl rfl rfl hstop, clex_bracket, clex_literal hnumber hstop',
    clex_unbracket, hspace]
  simp [ctokens]

theorem Compiles.paren (h : Compiles e x) (u v : Text) :
    Compiles ((.char '(', u) :: e ++ [(.char ')', v)]) ('(' :: x ++ [')']) where
  lexes c T hc := by
    have happend : '(' :: x ++ [')'] ++ c :: T = '(' :: (x ++ ')' :: c :: T) := by simp
    rw [happend, clex_open, h.lexes ')' (c :: T) rfl, clex_close]
    simp [ctokens, charToken]
  head := ⟨'(', _, rfl, Or.inr (Or.inl rfl)⟩

theorem op_cases {o : Char} (h : associativeOp o = true ∨ commutativeOp o = true) :
    o = '+' ∨ o = '-' ∨ o = '*' ∨ o = '/' := by
  simpa [associativeOp, commutativeOp, or_assoc] using h

theorem Compiles.clex_op (h : Compiles e x) {o : Char} (ho : associativeOp o = true ∨ commutativeOp o = true)
    (hsign : o = '-' → ∀ l ∈ e.head?, l.2.head? ≠ some '-') (T : Text) :
    clex (o :: (x ++ T)) = charToken o :: clex (x ++ T) := by
  obtain ⟨c, s, hx, hc⟩ := h.head
  have hminus : o = '-' → c ≠ '-' := by
    intro ho hc'
    subst hc'
    rcases hc with hc | hc | hc | ⟨-, l, hl, hc⟩
    · exact absurd hc (by decide)
    · exact absurd hc (by decide)
    · exact absurd hc (by decide)
    · exact hsign ho l hl hc
  have hother : ∀ a ∈ ['+', '=', '>', '*', '/'], (x ++ T).head? ≠ some a := by
    intro a ha hhead
    rw [hx] at hhead
    cases hhead
    have hnot : ∀ a ∈ ['+', '=', '>', '*', '/'], ¬ (a = 'e' ∨ a = '(' ∨ digit a = true ∨ a = '-') := by decide
    exact hnot c ha (hc.imp_right fun h => h.imp_right fun h => h.imp_right And.left)
  rcases op_cases ho with rfl | rfl | rfl | rfl
  · exact clex_plus (hother '+' (by simp)) (hother '=' (by simp))
  · refine clex_minus (fun h => ?_) (hother '=' (by simp)) (hother '>' (by simp))
    rw [hx] at h
    cases h
    exact hminus rfl rfl
  · exact clex_star (hother '=' (by simp))
  · exact clex_slash (hother '=' (by simp)) (hother '*' (by simp)) (hother '/' (by simp))

theorem Compiles.op (hx : Compiles e x) (hy : Compiles e' y) {o : Char}
    (ho : associativeOp o = true ∨ commutativeOp o = true) (hsign : o = '-' → ∀ l ∈ e'.head?, l.2.head? ≠ some '-')
    (u : Text) : Compiles (e ++ (.char o, u) :: e') (x ++ o :: y) where
  lexes c T hc := by
    have hends : ends o = true := by rcases op_cases ho with rfl | rfl | rfl | rfl <;> rfl
    have happend : x ++ o :: y ++ c :: T = x ++ o :: (y ++ c :: T) := by simp
    rw [happend, hx.lexes o _ hends, hy.clex_op ho hsign, hy.lexes c T hc]
    simp [ctokens]
  head := by
    obtain ⟨c, s, rfl, hc⟩ := hx.head
    refine ⟨c, s ++ o :: y, rfl, hc.imp_right fun h => h.imp_right fun h => h.imp_right ?_⟩
    rintro ⟨hc, l, hl, hsign⟩
    refine ⟨hc, l, ?_, hsign⟩
    rw [List.head?_append, hl]
    rfl

end Compiles

/-- A lexeme that C can read. -/
structure Readable (l : Lexeme) : Prop where
  origin : Origin l.2 l.1
  variableOk : variableOk l = true
  symbols : (lexemeSymbols exactReading l).isSome = true

/-- `l` may stand behind `k`. -/
def Apart (k l : Lexeme) : Prop := ¬ (k.1 = .char '-' ∧ l.2.head? = some '-')

theorem apart_iff {e : List Lexeme} : apart e = true ↔ e.IsChain Apart := by
  induction e with
  | nil => exact iff_of_true rfl .nil
  | cons k e ih =>
    cases e with
    | nil => exact iff_of_true rfl (.singleton k)
    | cons l e =>
      rw [List.isChain_cons_cons, ← ih, Apart, apart, Bool.and_eq_true, Bool.not_eq_true', decide_eq_false_iff_not]

theorem Readable.literal {t : Token} {u : Text} (h : Readable (t, u)) (hu : u ∈ integer.lang ∨ u ∈ real.lang)
    (ht : lexemeSymbols exactReading (t, u) = literalSymbols exactReading u) : NumberText (unsigned u) := by
  have hsome := h.symbols
  rw [ht, literalSymbols, Option.isSome_map] at hsome
  exact numberText_unsigned hu hsome

/-- **C reads the text of a derivable expression as the tokens of its lexemes.** -/
theorem Derives.compiles {s : Sym} {ts : List Token} {x : Text} (h : Derives s ts x) {e : List Lexeme}
    (he : e.map Prod.fst = ts) (hr : ∀ l ∈ e, Readable l) (ha : e.IsChain Apart) :
    Compiles e x := by
  have binary : ∀ {ts us : List Token} {x y : Text} {o : Char} {e : List Lexeme},
      associativeOp o = true ∨ commutativeOp o = true →
      (∀ {e : List Lexeme}, e.map Prod.fst = ts → (∀ l ∈ e, Readable l) → e.IsChain Apart → Compiles e x) →
      (∀ {e : List Lexeme}, e.map Prod.fst = us → (∀ l ∈ e, Readable l) → e.IsChain Apart → Compiles e y) →
      e.map Prod.fst = ts ++ .char o :: us → (∀ l ∈ e, Readable l) → e.IsChain Apart →
      Compiles e (x ++ o :: y) := by
    intro ts us x y o e ho hl hr he hread ha
    obtain ⟨e₁, e₂, rfl, h₁, h₂⟩ := List.map_eq_append_iff.mp he
    obtain ⟨⟨t, u⟩, e₃, rfl, ht, h₃⟩ := List.map_eq_cons_iff.mp h₂
    cases ht
    obtain ⟨ha₁, ha₂, -⟩ := List.isChain_append.mp ha
    obtain ⟨hnext, ha₃⟩ := List.isChain_cons.mp ha₂
    obtain ⟨hread₁, hread₂⟩ := List.forall_mem_append.mp hread
    refine (hl h₁ hread₁ ha₁).op (hr h₃ (List.forall_mem_cons.mp hread₂).2 ha₃) ho ?_ u
    rintro rfl l hl hhead
    exact hnext l hl ⟨rfl, hhead⟩
  induction h generalizing e with
  | var t =>
    obtain ⟨⟨_, u⟩, rfl, rfl⟩ := List.map_eq_singleton_iff.mp he
    have hl := hr _ (List.mem_singleton.mpr rfl)
    obtain ⟨hu, rfl⟩ : u ∈ Config.var.lang ∧ t = varToReference u := hl.origin
    obtain ⟨a, hdollar, k, hk, rfl⟩ := mem_seq.mp hu
    cases mem_chr.mp hdollar
    have hlen := (Bool.and_eq_true _ _ ▸ hl.variableOk).1
    exact compiles_var hk (Nat.le_of_succ_le_succ (of_decide_eq_true hlen))
  | integer t =>
    obtain ⟨⟨_, u⟩, rfl, rfl⟩ := List.map_eq_singleton_iff.mp he
    have hl := hr _ (List.mem_singleton.mpr rfl)
    obtain ⟨hu, rfl⟩ : u ∈ Config.integer.lang ∧ t = u := hl.origin
    exact compiles_literal rfl (hl.literal (Or.inl hu) rfl)
  | real t =>
    obtain ⟨⟨_, u⟩, rfl, rfl⟩ := List.map_eq_singleton_iff.mp he
    have hl := hr _ (List.mem_singleton.mpr rfl)
    obtain ⟨hu, rfl⟩ : u ∈ Config.real.lang ∧ t = u := hl.origin
    exact compiles_literal rfl (hl.literal (Or.inr hu) rfl)
  | paren _ ih =>
    obtain ⟨e₁, e₂, rfl, h₁, h₂⟩ := List.map_eq_append_iff.mp he
    obtain ⟨⟨_, u⟩, e₃, rfl, rfl, h₃⟩ := List.map_eq_cons_iff.mp h₁
    obtain ⟨⟨_, v⟩, rfl, rfl⟩ := List.map_eq_singleton_iff.mp h₂
    have hread := (List.forall_mem_append.mp hr).1
    have hchain := (List.isChain_append.mp ha).1
    exact (ih h₃ (List.forall_mem_cons.mp hread).2 (List.isChain_cons.mp hchain).2).paren u v
  | terms _ ho _ ihl ihr => exact binary (Or.inl ho) ihl ihr he hr ha
  | associative _ ho _ ihl ihr => exact binary (Or.inl ho) ihl ihr he hr ha
  | ofTerm _ ih => exact ih he hr ha
  | ofAssociative _ ih => exact ih he hr ha
  | associatives _ ho _ ihl ihr => exact binary (Or.inr ho) ihl ihr he hr ha
  | commutative _ ho _ ihl ihr => exact binary (Or.inr ho) ihl ihr he hr ha

/-! ## Operands and operators of the C tokens -/

section Digits
variable {ds : Text}

theorem digitsValue_append (ds : Text) (c : Char) :
    digitsValue (ds ++ [c]) = 10 * digitsValue ds + (c.toNat - '0'.toNat) := by
  unfold digitsValue
  rw [List.foldl_append]
  rfl

theorem digit_value_le {c : Char} (h : digit c = true) : c.toNat - '0'.toNat ≤ 9 :=
  (by decide : ∀ c ∈ ['0', '1', '2', '3', '4', '5', '6', '7', '8', '9'], c.toNat - '0'.toNat ≤ 9) c (digit_cases h)

theorem digitsValue_lt (h : ∀ c ∈ ds, digit c = true) : digitsValue ds < Nat.pow 10 ds.length := by
  induction ds using List.reverseRecOn with
  | nil => decide
  | append_singleton ds c ih =>
    obtain ⟨hds, hc⟩ := List.forall_mem_append.mp h
    have hlt := ih hds
    have hle := digit_value_le (hc c (List.mem_singleton_self c))
    rw [digitsValue_append, List.length_append, List.length_singleton]
    show _ < Nat.pow 10 ds.length * 10
    omega

theorem subscript_of_value {n : Nat} (h : ds.all digit = true) (hv : integerValue ds = some n)
    (hn : n < 9223372036854775808) : subscript ds = some (n : Int) := by
  unfold subscript cConstant integerConstant intOrLong
  rw [if_pos h, hv, Option.bind_some]
  split_ifs with h₁ h₂
  · rfl
  · rfl
  · exact absurd (by unfold fitsLong; simp only [Bool.and_eq_true, decide_eq_true_eq]; omega) h₂

theorem octalValue_le (ds : Text) : octalValue ds ≤ digitsValue ds := by
  have hfold : ∀ {m n : Nat}, m ≤ n → ds.foldl (fun n c => 8 * n + (c.toNat - '0'.toNat)) m ≤
      ds.foldl (fun n c => 10 * n + (c.toNat - '0'.toNat)) n := by
    induction ds with
    | nil => exact fun h => h
    | cons c ds ih =>
      intro m n h
      have hstep : 8 * m + (c.toNat - '0'.toNat) ≤ 10 * n + (c.toNat - '0'.toNat) := by omega
      exact ih hstep
  exact hfold (Nat.le_refl 0)

theorem integerValue_le {n : Nat} (h : integerValue ds = some n) : n ≤ digitsValue ds := by
  unfold integerValue at h
  split_ifs at h
  · cases h
    exact octalValue_le ds
  · cases h
    exact Nat.le_refl _

/-- The subscript of a short variable. -/
theorem subscript_of_short {n : Nat} (h : ∀ c ∈ ds, digit c = true) (hlen : ds.length ≤ 7)
    (hv : integerValue ds = some n) :
    subscript ds = some (n : Int) := by
  have hlt := digitsValue_lt h
  have hle := integerValue_le hv
  have hpow : Nat.pow 10 ds.length ≤ Nat.pow 10 7 := Nat.pow_le_pow_right (by decide) hlen
  have hmax : Nat.pow 10 7 < 9223372036854775808 := by decide
  exact subscript_of_value (List.all_eq_true.mpr h) hv (by omega)

end Digits

section Symbols
variable {V : Type} {r : Reading V} {l : Lexeme} {u : Text} (ts : List CTok)

theorem csymbols_literal (u : Text) : csymbols r (literalTokens u ++ ts) =
    (literalSymbols r u).bind fun ss => (csymbols r ts).map (ss ++ ·) := by
  unfold literalTokens literalSymbols
  split_ifs
  · simp only [List.cons_append, List.nil_append, csymbols]
    cases r.constant (unsigned u) <;> cases csymbols r ts <;> rfl
  · simp only [List.cons_append, List.nil_append, csymbols]
    cases r.constant (unsigned u) <;> rfl

theorem intValue_of_not_minus {k : Text} (h : k.head? ≠ some '-') : intValue k = (digitsValue k : Int) := by
  unfold intValue
  split
  · exact absurd rfl h
  · rfl

/-- The number that C reads in an integer of the scanner, octal behind a zero. -/
def cInteger (k : Text) : Option Int :=
  (integerValue (unsigned k)).map fun (n : Nat) => if k.head? = some '-' then -(n : Int) else (n : Int)

theorem cInteger_decimal {k : Text} (hdec : readsDecimal (unsigned k) = true) : cInteger k = some (intValue k) := by
  unfold cInteger
  rw [of_decide_eq_true hdec, Option.map_some]
  split_ifs with hsign
  · exact congrArg some (congrArg intValue ((sign_unsigned k).1 hsign)).symm
  · rw [intValue_of_not_minus hsign, (sign_unsigned k).2 hsign]

theorem csymbols_index {k : Text} {i : Int} (hk : k ∈ integer.lang) (hlen : k.length ≤ 7) (hi : cInteger k = some i) :
    csymbols r (word "events" :: .punct "[" :: (literalTokens k ++ .punct "]" :: ts)) =
      (csymbols r ts).map (.operand (r.event i) :: ·) := by
  obtain ⟨-, hdigits⟩ := unsigned_integer hk
  obtain ⟨n, hn, rfl⟩ := Option.map_eq_some_iff.mp hi
  unfold literalTokens
  split_ifs with hsign
  · have hlen' : (unsigned k).length ≤ 7 := by
      have := congrArg List.length ((sign_unsigned k).1 hsign)
      rw [List.length_cons] at this
      omega
    simp only [word, List.cons_append, List.nil_append, csymbols, subscript_of_short hdigits hlen' hn, if_true,
      Option.bind_some]
  · rw [(sign_unsigned k).2 hsign] at hdigits hn ⊢
    simp only [word, List.cons_append, List.nil_append, csymbols, subscript_of_short hdigits hlen hn, if_true,
      Option.bind_some]

theorem csymbols_var {k : Text} (hk : k ∈ integer.lang) (hlen : k.length ≤ 7)
    (hdec : readsDecimal (unsigned k) = true) :
    csymbols r (word "events" :: .punct "[" :: (literalTokens k ++ .punct "]" :: ts)) =
      (csymbols r ts).map (.operand (r.event (intValue k)) :: ·) :=
  csymbols_index ts hk hlen (cInteger_decimal hdec)

theorem csymbols_char (c : Char) (u : Text) (h : (lexemeSymbols r (.char c, u)).isSome = true) :
    csymbols r (charToken c :: ts) =
      (lexemeSymbols r (.char c, u)).bind fun ss => (csymbols r ts).map (ss ++ ·) := by
  simp only [lexemeSymbols, Option.isSome_map] at h
  unfold charSymbol at h
  split at h
  · rfl
  · rfl
  · rfl
  · rfl
  · rfl
  · rfl
  · cases h

/-- The tokens of one lexeme. -/
theorem csymbols_lexeme (h : Readable l) : csymbols r (ctokens l ++ ts) =
    (lexemeSymbols r l).bind fun ss => (csymbols r ts).map (ss ++ ·) := by
  obtain ⟨t, u⟩ := l
  have hsome := h.symbols
  cases t with
  | var x =>
    obtain ⟨hu, -⟩ : u ∈ var.lang ∧ x = varToReference u := h.origin
    obtain ⟨a, ha, k, hk, rfl⟩ := mem_seq.mp hu
    cases mem_chr.mp ha
    obtain ⟨hlen, hdec⟩ := Bool.and_eq_true _ _ ▸ h.variableOk
    have hlen' : k.length ≤ 7 := Nat.le_of_succ_le_succ (of_decide_eq_true hlen)
    have htokens : ctokens (.var x, ['$'] ++ k) ++ ts =
        word "events" :: .punct "[" :: (literalTokens k ++ .punct "]" :: ts) := by simp [ctokens]
    rw [htokens, csymbols_var ts hk hlen' hdec]
    rfl
  | integer x => exact csymbols_literal ts u
  | real x => exact csymbols_literal ts u
  | char c =>
    refine csymbols_char ts c u ?_
    obtain ⟨s, hs⟩ := Option.isSome_iff_exists.mp hsome
    obtain ⟨s', hs', -⟩ := Option.map_eq_some_iff.mp hs
    obtain ⟨t, ht, -⟩ := charSymbol_rel (R := fun (_ : CNum Unit) (_ : V) => True) hs'
    rw [lexemeSymbols, ht]
    rfl
  | _ => cases hsome

theorem csymbols_tokens {e : List Lexeme} (h : ∀ l ∈ e, Readable l) :
    csymbols r (e.flatMap ctokens) = exprSymbols r e := by
  induction e with
  | nil => rfl
  | cons l e ih =>
    obtain ⟨hl, he⟩ := List.forall_mem_cons.mp h
    rw [List.flatMap_cons, csymbols_lexeme _ hl, ih he]
    rfl

end Symbols

end Hmon.Config
