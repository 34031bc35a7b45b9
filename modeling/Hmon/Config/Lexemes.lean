import Hmon.Config.Scanner

/-!
# The lexemes of the scanner

* `scan_single`, `scan_blank` : characters that are a lexeme of their own, with and without a token;
* `longest_integer`, `longest_real`, `longest_name` : how far the overlapping rules match at the head of a text;
* `scan_number`, `scan_minus`, `scan_slash`, `scan_var`, `scan_name`, … : one lexeme, with its token;
* `rules_char`, `rules_none`, `scan_first`, … : what holds of the tokens of every lexeme.
-/

namespace Hmon.Config
open Lib Lib.Regex

/-! ## One lexeme -/

/-- `scan` takes the lexeme `u` on which the rules for its first character agree. -/
theorem scan_of_best {a : Char} {u v : Text} {rs : List (Rule Char Token)} {r : Rule Char Token}
    (hrs : (rules.filter fun q => q.regex.first a) = rs) (ha : u.head? = some a)
    (h : Lexer.best (u ++ v) rs = some (u.length, r)) : scan (u ++ v) = (r.action u).toList ++ scan v := by
  cases u with
  | nil => cases ha
  | cons b u =>
    cases ha
    subst hrs
    have hscan := Lexer.scan_eq (Lexer.best_of_filter h)
    have htake : ((a :: u) ++ v).take (u.length + 1) = a :: u := by rw [← List.length_cons, List.take_left]
    have hdrop : ((a :: u) ++ v).drop (u.length + 1) = v := by rw [← List.length_cons, List.drop_left]
    exact hscan.trans (congrArg₂ (fun x y => (r.action x).toList ++ scan y) htake hdrop)

theorem longest_chr (c : Char) (s : Text) : longest (chr c) (c :: s) = some 1 := by
  rw [← longest_seq_eps]
  unfold chr
  rw [longest_seq_cls, if_pos (decide_eq_true rfl), longest_eps]
  rfl

theorem longest_default (c : Char) (s : Text) : longest defaultRule.regex (c :: s) = some 1 := by
  unfold defaultRule
  rw [← longest_seq_eps, longest_seq_cls, if_pos rfl, longest_eps]
  rfl

/-- A character that only the rule for it and the default rule take. -/
theorem scan_single {c : Char} (h : (rules.filter fun q => q.regex.first c) = [single c, defaultRule]) (s : Text) :
    scan (c :: s) = .char c :: scan s := by
  have hbest : Lexer.best ([c] ++ s) [single c, defaultRule] = some (1, single c) := by
    simp [Lexer.best, single, longest_chr, longest_default]
  exact scan_of_best h rfl hbest

/-- A character that only the default rule takes: no token. -/
theorem scan_blank {c : Char} (h : (rules.filter fun q => q.regex.first c) = [defaultRule]) (s : Text) :
    scan (c :: s) = scan s := by
  have hbest : Lexer.best ([c] ++ s) [defaultRule] = some (1, defaultRule) := by
    simp [Lexer.best, longest_default]
  exact scan_of_best h rfl hbest

theorem scan_plus (s : Text) : scan ('+' :: s) = .char '+' :: scan s := scan_single rfl s

theorem scan_times (s : Text) : scan ('*' :: s) = .char '*' :: scan s := scan_single rfl s

theorem scan_comma (s : Text) : scan (',' :: s) = .char ',' :: scan s := scan_single rfl s

theorem scan_semicolon (s : Text) : scan (';' :: s) = .char ';' :: scan s := scan_single rfl s

theorem scan_equals (s : Text) : scan ('=' :: s) = .char '=' :: scan s := scan_single rfl s

theorem scan_dot (s : Text) : scan ('.' :: s) = .char '.' :: scan s := scan_single rfl s

/-- Spaces are printed. -/
theorem scan_spaces (n : Nat) (s : Text) : scan (List.replicate n ' ' ++ s) = scan s := by
  induction n with
  | zero => rfl
  | succ n ih =>
    rw [List.replicate_succ, List.cons_append, scan_blank rfl, ih]

/-! ## Numbers -/

abbrev digit : Char → Bool := Char.isDigit

theorem fraction_not_digit {c : Char} (h : digit c = true) : fraction.first c = false := by
  have hne : c ≠ '.' := by rintro rfl; cases h
  simp [fraction, opt, first, chr, nullable, hne]

theorem exponent_not_digit {c : Char} (h : digit c = true) : exponent.first c = false := by
  have he : c ≠ 'e' := by rintro rfl; cases h
  have hE : c ≠ 'E' := by rintro rfl; cases h
  simp [exponent, opt, first, nullable, he, hE]

theorem fractionExponent_not_digit (c : Char) (h : digit c = true) : (seq fraction exponent).first c = false := by
  rw [first, fraction_not_digit h, exponent_not_digit h]
  simp

/-- An integer without sign, and with one. -/
theorem longest_integer_seq {r : Regex Char} {ds T : Text} (hne : ds ≠ []) (hds : ∀ c ∈ ds, digit c = true)
    (hT : Stops digit T) (hr : ∀ c, digit c = true → r.first c = false) (hn : [] ∈ r.lang) :
    longest (seq integer r) (ds ++ T) = (longest r T).map (· + ds.length) := by
  unfold integer
  rw [longest_seq_assoc, longest_seq_opt, longest_seq_plus hne hds hT hr hn]
  cases ds with
  | nil => exact absurd rfl hne
  | cons d ds =>
    have hd : d ≠ '-' := by
      rintro rfl
      exact absurd (hds '-' List.mem_cons_self) (by decide)
    unfold chr
    rw [List.cons_append, longest_seq_cls, if_neg (by simpa using hd)]
    rfl

theorem longest_integer_seq_neg {r : Regex Char} {ds T : Text} (hne : ds ≠ []) (hds : ∀ c ∈ ds, digit c = true)
    (hT : Stops digit T) (hr : ∀ c, digit c = true → r.first c = false) (hn : [] ∈ r.lang) :
    longest (seq integer r) ('-' :: (ds ++ T)) = (longest r T).map (· + ds.length + 1) := by
  unfold integer chr
  rw [longest_seq_assoc, longest_seq_opt, longest_seq_cls, if_pos (decide_eq_true rfl),
    longest_seq_plus hne hds hT hr hn, longest_seq_plus_none (fun c hc => by cases hc; decide), Option.map_map]
  cases longest r T <;> rfl

/-- No integer starts here. -/
def NoInteger (s : Text) : Prop := Stops digit s ∧ ∀ t, s = '-' :: t → Stops digit t

theorem longest_integer_seq_none {r : Regex Char} {s : Text} (h : NoInteger s) :
    longest (seq integer r) s = .none := by
  unfold integer chr
  rw [longest_seq_assoc, longest_seq_opt, longest_seq_plus_none h.1]
  cases s with
  | nil => rw [longest_seq_cls_nil]; rfl
  | cons c s =>
    rw [longest_seq_cls]
    split_ifs with hc
    · have hc : c = '-' := of_decide_eq_true hc
      subst hc
      rw [longest_seq_plus_none (h.2 s rfl)]
      rfl
    · rfl

section Number
variable {ds fs es T : Text}

theorem longest_integer (hne : ds ≠ []) (hds : ∀ c ∈ ds, digit c = true) (hT : Stops digit T) :
    longest integer (ds ++ T) = some ds.length := by
  rw [← longest_seq_eps, longest_integer_seq hne hds hT (fun _ _ => rfl) (mem_eps.mpr rfl), longest_eps,
    Option.map_some, Nat.zero_add]

theorem longest_integer_neg (hne : ds ≠ []) (hds : ∀ c ∈ ds, digit c = true) (hT : Stops digit T) :
    longest integer ('-' :: (ds ++ T)) = some (ds.length + 1) := by
  rw [← longest_seq_eps, longest_integer_seq_neg hne hds hT (fun _ _ => rfl) (mem_eps.mpr rfl), longest_eps,
    Option.map_some, Nat.zero_add]

theorem longest_integer_none {s : Text} (h : NoInteger s) : longest integer s = .none := by
  rw [← longest_seq_eps, longest_integer_seq_none h]

/-- `e` or `E`. -/
def isExp (c : Char) : Bool := c == 'e' || c == 'E'

def isSign (c : Char) : Bool := c == '+' || c == '-'

/-- An exponent with a sign is matched. -/
theorem longest_exponent {e s : Char} (he : isExp e = true) (hs : isSign s = true) (hne : es ≠ [])
    (hes : ∀ c ∈ es, digit c = true) (hT : Stops digit T) :
    longest exponent (e :: s :: (es ++ T)) = some (es.length + 2) := by
  have he' : (e == 'e' || e == 'E') = true := he
  have hs' : (s == '+' || s == '-') = true := hs
  unfold exponent
  rw [longest_opt, longest_seq_cls, if_pos he', longest_seq_cls, if_pos hs', longest_integer hne hes hT]
  rfl

/-- No exponent with a sign starts here. -/
def NoExponent (s : Text) : Prop := ∀ e t, s = e :: t → isExp e = true → Stops isSign t

theorem longest_exponent_none {s : Text} (h : NoExponent s) : longest exponent s = some 0 := by
  unfold exponent
  rw [longest_opt]
  cases s with
  | nil => rw [longest_seq_cls_nil]; rfl
  | cons e t =>
    rw [longest_seq_cls]
    split_ifs with he
    · have hstop := h e t rfl he
      cases t with
      | nil => rw [longest_seq_cls_nil]; rfl
      | cons c t =>
        have hc : (c == '+' || c == '-') = false := hstop c rfl
        rw [longest_seq_cls, hc]
        rfl
    · rfl

/-- No fraction starts here. -/
def NoFraction (s : Text) : Prop := ∀ t, s = '.' :: t → NoInteger t

theorem longest_fraction_none {s : Text} (h : NoFraction s) :
    longest (seq fraction exponent) s = longest exponent s := by
  have hfirst : longest (seq (seq (chr '.') integer) exponent) s = .none := by
    unfold chr
    rw [longest_seq_assoc]
    cases s with
    | nil => exact longest_seq_cls_nil
    | cons c t =>
      rw [longest_seq_cls]
      split_ifs with hc
      · have hc : c = '.' := of_decide_eq_true hc
        subst hc
        rw [longest_integer_seq_none (h t rfl)]
        rfl
      · rfl
  unfold fraction
  rw [longest_seq_opt, hfirst]
  rfl

theorem exponent_dot (t : Text) : longest exponent ('.' :: t) = some 0 :=
  longest_exponent_none fun e u h he => by
    obtain ⟨rfl, -⟩ := List.cons.inj h
    cases he

/-- A fraction is matched, with the exponent behind it. -/
theorem longest_fraction {n : Nat} (hne : fs ≠ []) (hfs : ∀ c ∈ fs, digit c = true) (hT : Stops digit T)
    (hn : longest exponent T = some n) :
    longest (seq fraction exponent) ('.' :: (fs ++ T)) = some (n + fs.length + 1) := by
  unfold fraction chr
  rw [longest_seq_opt, longest_seq_assoc, longest_seq_cls, if_pos (decide_eq_true rfl),
    longest_integer_seq hne hfs hT (fun _ => exponent_not_digit) (mem_opt.mpr (Or.inl rfl)), hn, exponent_dot]
  rfl

/-- So is a fraction with a sign. -/
theorem longest_fraction_neg {n : Nat} (hne : fs ≠ []) (hfs : ∀ c ∈ fs, digit c = true) (hT : Stops digit T)
    (hn : longest exponent T = some n) :
    longest (seq fraction exponent) ('.' :: '-' :: (fs ++ T)) = some (n + fs.length + 2) := by
  unfold fraction chr
  rw [longest_seq_opt, longest_seq_assoc, longest_seq_cls, if_pos (decide_eq_true rfl),
    longest_integer_seq_neg hne hfs hT (fun _ => exponent_not_digit) (mem_opt.mpr (Or.inl rfl)), hn, exponent_dot]
  rfl

theorem nil_mem_fractionExponent : [] ∈ (seq fraction exponent).lang :=
  mem_seq.mpr ⟨[], mem_opt.mpr (Or.inl rfl), [], mem_opt.mpr (Or.inl rfl), rfl⟩

/-- A number without sign: its digits and the fraction and exponent behind them. -/
theorem longest_real {n : Nat} (hne : ds ≠ []) (hds : ∀ c ∈ ds, digit c = true) (hT : Stops digit T)
    (hn : longest (seq fraction exponent) T = some n) : longest real (ds ++ T) = some (n + ds.length) := by
  unfold real
  rw [longest_seq_opt, longest_integer_seq hne hds hT fractionExponent_not_digit nil_mem_fractionExponent, hn]
  cases ds with
  | nil => exact absurd rfl hne
  | cons d ds =>
    have hd : d ≠ '-' := by
      rintro rfl
      exact absurd (hds '-' List.mem_cons_self) (by decide)
    unfold chr
    rw [List.cons_append, longest_seq_cls, if_neg (by simpa using hd)]
    rfl

theorem longest_real_neg {n : Nat} (hne : ds ≠ []) (hds : ∀ c ∈ ds, digit c = true) (hT : Stops digit T)
    (hn : longest (seq fraction exponent) T = some n) :
    longest real ('-' :: (ds ++ T)) = some (n + ds.length + 1) := by
  unfold real chr
  rw [longest_seq_opt, longest_seq_cls, if_pos (decide_eq_true rfl),
    longest_integer_seq hne hds hT fractionExponent_not_digit nil_mem_fractionExponent,
    longest_integer_seq_neg hne hds hT fractionExponent_not_digit nil_mem_fractionExponent, hn]
  simp [longer]

end Number

/-! ## Names -/

abbrev alpha : Char → Bool := Char.isAlpha

theorem alpha_nameClass {c : Char} (h : alpha c = true) : nameClass c = true := by
  simp [nameClass, Char.isAlphanum, h]

theorem digit_nameClass {c : Char} (h : digit c = true) : nameClass c = true := by
  simp [nameClass, Char.isAlphanum, h]

theorem mem_name {u : Text} : u ∈ name.lang ↔
    (∃ c w, u = c :: w ∧ alpha c = true ∧ ∀ b ∈ w, nameClass b = true) ∨
      ∃ w c, u = w ++ [c] ∧ alpha c = true ∧ ∀ b ∈ w, nameClass b = true := by
  unfold name
  rw [mem_alt, mem_seq, mem_seq]
  refine or_congr ⟨?_, ?_⟩ ⟨?_, ?_⟩
  · rintro ⟨x, ⟨c, hc, rfl⟩, w, hw, rfl⟩
    exact ⟨c, w, rfl, hc, mem_star_cls.mp hw⟩
  · rintro ⟨c, w, rfl, hc, hw⟩
    exact ⟨[c], ⟨c, hc, rfl⟩, w, mem_star_cls.mpr hw, rfl⟩
  · rintro ⟨w, hw, x, ⟨c, hc, rfl⟩, rfl⟩
    exact ⟨w, c, rfl, hc, mem_star_cls.mp hw⟩
  · rintro ⟨w, c, rfl, hc, hw⟩
    exact ⟨w, mem_star_cls.mpr hw, [c], ⟨c, hc, rfl⟩, rfl⟩

theorem nameClass_of_mem_name {u : Text} (h : u ∈ name.lang) :
    (∀ c ∈ u, nameClass c = true) ∧ ∃ c ∈ u, alpha c = true := by
  rcases mem_name.mp h with ⟨c, w, rfl, hc, hw⟩ | ⟨w, c, rfl, hc, hw⟩
  · exact ⟨List.forall_mem_cons.mpr ⟨alpha_nameClass hc, hw⟩, c, List.mem_cons_self, hc⟩
  · refine ⟨fun b hb => ?_, c, by simp, hc⟩
    rcases List.mem_append.mp hb with hb | hb
    · exact hw b hb
    · rw [List.mem_singleton.mp hb]
      exact alpha_nameClass hc

/-- A run of the name class without a letter is not the beginning of a name. -/
theorem longest_name_none {A T : Text} (hA : ∀ c ∈ A, nameClass c = true) (hletters : ∀ c ∈ A, alpha c = false)
    (hT : Stops nameClass T) : longest name (A ++ T) = .none := by
  refine longest_eq_none_iff.mpr fun u v he hu => ?_
  obtain ⟨hclass, c, hc, hca⟩ := nameClass_of_mem_name hu
  obtain ⟨es, rfl, -⟩ := run_split hA hclass hT he
  rw [hletters c (List.mem_append_left _ hc)] at hca
  cases hca

/-- A name that ends its run of the name class. -/
theorem longest_name_run {A T : Text} (hA : A ∈ name.lang) (hT : Stops nameClass T) :
    longest name (A ++ T) = some A.length := by
  refine longest_eq_some_iff.mpr ⟨A, T, rfl, rfl, hA, fun u v he hu => ?_⟩
  obtain ⟨es, rfl, -⟩ := run_split (nameClass_of_mem_name hA).1 (nameClass_of_mem_name hu).1 hT he
  rw [List.length_append]
  omega

/-- A text that starts and ends with no letter, before letterless characters: a name in it is shorter. -/
theorem name_lt {A B T u v : Text} (hne : A ≠ []) (hhead : ∀ c ∈ A.head?, alpha c = false)
    (hlast : ∀ c ∈ A.getLast?, alpha c = false) (hB : ∀ c ∈ B, nameClass c = true)
    (hletters : ∀ c ∈ B, alpha c = false) (hT : Stops nameClass T) (he : A ++ (B ++ T) = u ++ v)
    (hu : u ∈ name.lang) : u.length < A.length := by
  by_contra hlen
  obtain ⟨es, rfl, hes⟩ : ∃ es, u = A ++ es ∧ B ++ T = es ++ v := by
    rcases List.append_eq_append_iff.mp he with ⟨es, hu, hv⟩ | ⟨es, hu, hv⟩
    · exact ⟨es, hu, hv⟩
    · have hnil : es = [] := by
        rw [hu, List.length_append] at hlen
        exact List.length_eq_zero_iff.mp (by omega)
      subst hnil
      exact ⟨[], by simpa using hu.symm, by simpa using hv.symm⟩
  have hclass : ∀ c ∈ es, nameClass c = true := fun c hc =>
    (nameClass_of_mem_name hu).1 c (List.mem_append_right _ hc)
  obtain ⟨rest, rfl, -⟩ := run_split hB hclass hT hes
  rcases mem_name.mp hu with ⟨c, w, hcw, hc, -⟩ | ⟨w, c, hcw, hc, -⟩
  · cases A with
    | nil => exact hne rfl
    | cons a A =>
      obtain ⟨rfl, -⟩ := List.cons.inj hcw
      rw [hhead a rfl] at hc
      cases hc
  · have hend : (A ++ es).getLast? = some c := by rw [hcw]; simp
    rw [List.getLast?_append] at hend
    cases hes' : es.getLast? with
    | none =>
      rw [hes'] at hend
      rw [hlast c hend] at hc
      cases hc
    | some d =>
      rw [hes'] at hend
      cases hend
      rw [hletters c (List.mem_append_left _ (List.mem_of_getLast? hes'))] at hc
      cases hc

/-! ## Numbers and names together -/

theorem digit_cases {c : Char} (h : digit c = true) : c ∈ ['0', '1', '2', '3', '4', '5', '6', '7', '8', '9'] := by
  have hle : 48 ≤ c.toNat ∧ c.toNat ≤ 57 := by
    simpa [Char.isDigit, Char.le_def, UInt32.le_iff_toNat_le] using h
  have hc : c = Char.ofNat c.toNat := (Char.ofNat_toNat c).symm
  have hn : c.toNat = 48 ∨ c.toNat = 49 ∨ c.toNat = 50 ∨ c.toNat = 51 ∨ c.toNat = 52 ∨ c.toNat = 53 ∨ c.toNat = 54 ∨
      c.toNat = 55 ∨ c.toNat = 56 ∨ c.toNat = 57 := by omega
  rcases hn with hn | hn | hn | hn | hn | hn | hn | hn | hn | hn <;> rw [hc, hn] <;> decide

theorem digit_not_alpha {c : Char} (h : digit c = true) : alpha c = false :=
  (by decide : ∀ c ∈ ['0', '1', '2', '3', '4', '5', '6', '7', '8', '9'], alpha c = false) c (digit_cases h)

theorem rules_digit {c : Char} (h : digit c = true) :
    (rules.filter fun q => q.regex.first c) = [nameRule, integerRule, realRule, defaultRule] := by
  have := digit_cases h
  simp only [List.mem_cons, List.not_mem_nil, or_false] at this
  rcases this with rfl | rfl | rfl | rfl | rfl | rfl | rfl | rfl | rfl | rfl <;> rfl

theorem rules_minus : (rules.filter fun q => q.regex.first '-') =
    [nameRule, integerRule, realRule, single '-', defaultRule] := rfl

/-- The token of a number whose longest integer has `i` characters. -/
def numberToken (i : Nat) (s : Text) : Token := if i = s.length then .integer s else .real s

section Starts
variable {a : Char} {L R w : Text} {i k m n : Nat}

/-- What the rules behind the number rules take: one character. -/
theorem best_rest (ha : digit a = true ∨ a = '-') : ∃ rest q, Lexer.best (a :: w) rest = some (1, q) ∧
    (rules.filter fun q => q.regex.first a) = nameRule :: integerRule :: realRule :: rest := by
  have hd : longest defaultRule.regex (a :: w) = some 1 := longest_default a w
  rcases ha with ha | rfl
  · exact ⟨[defaultRule], defaultRule, by simp only [Lexer.best, hd], rules_digit ha⟩
  · have hs : longest (single '-').regex ('-' :: w) = some 1 := longest_chr '-' w
    exact ⟨[single '-', defaultRule], single '-', by simp only [Lexer.best, hd, hs, le_refl, if_true], rules_minus⟩

theorem best_numbers {rest : List (Rule Char Token)} {q : Rule Char Token} (hrest : Lexer.best w rest = some (1, q))
    (hi : longest integer w = some i) (hr : longest real w = some n) (hn : 1 ≤ n) (hin : i ≤ n) :
    Lexer.best w (integerRule :: realRule :: rest) = some (n, if i = n then integerRule else realRule) := by
  simp only [Lexer.best, integerRule, realRule, hi, hr, hrest]
  rw [if_pos hn]
  by_cases h : i = n
  · rw [if_pos h, h]
    simp only [le_refl, if_true]
  · simp only [if_neg h]
    rw [if_neg (by omega)]

/-- A number, where no name is as long. -/
theorem scan_number (ha : digit a = true ∨ a = '-') (hL : L.head? = some a) (hi : longest integer (L ++ R) = some i)
    (hiL : i ≤ L.length) (hr : longest real (L ++ R) = some L.length)
    (hn : ∀ u v, L ++ R = u ++ v → u ∈ name.lang → u.length < L.length) :
    scan (L ++ R) = numberToken i L :: scan R := by
  cases L with
  | nil => cases hL
  | cons b A =>
    cases hL
    obtain ⟨rest, q, hrest, hrules⟩ := best_rest (w := A ++ R) ha
    have hbest := Lexer.best_cons_of_lt (q := nameRule)
      (best_numbers hrest hi hr (Nat.succ_pos A.length) hiL) fun m hm =>
        hn _ _ (List.take_append_drop m _).symm hm.2 |> (List.length_take_of_le hm.1 ▸ ·)
    rw [scan_of_best hrules rfl hbest]
    unfold numberToken
    split_ifs <;> rfl

/-- A name at the head of a text where numbers could start, and no number is longer. -/
theorem scan_name_number (ha : digit a = true ∨ a = '-') (hi : longest integer (a :: w) = some i)
    (hr : longest real (a :: w) = some n) (hn : 1 ≤ n) (hin : i ≤ n) (hm : longest name (a :: w) = some m)
    (hnm : n ≤ m) : ∃ s ts, scan (a :: w) = .name s :: ts := by
  obtain ⟨rest, q, hrest, hrules⟩ := best_rest (w := w) ha
  have hbest : Lexer.best (a :: w) (nameRule :: integerRule :: realRule :: rest) = some (m, nameRule) := by
    have hnumbers := best_numbers hrest hi hr hn hin
    simp only [Lexer.best] at hnumbers ⊢
    simp only [nameRule, hm, hnumbers]
    rw [if_pos hnm]
  obtain ⟨k, rfl⟩ : ∃ k, m = k + 1 := ⟨m - 1, by omega⟩
  rw [← hrules] at hbest
  exact ⟨_, _, Lexer.scan_eq (Lexer.best_of_filter hbest)⟩

end Starts

/-! ## The tokens of any lexeme -/

/-- A character token is a lexeme of its own. -/
theorem rules_char : ∀ r ∈ rules, ∀ u ∈ r.regex.lang, ∀ c, r.action u = some (.char c) → u = [c] := by
  have hsingle : ∀ d : Char, ∀ u ∈ (single d).regex.lang, ∀ c, (single d).action u = some (.char c) → u = [c] := by
    intro d u hu c h
    cases h
    exact mem_chr.mp hu
  simp only [rules, List.forall_mem_cons, List.not_mem_nil, IsEmpty.forall_iff, implies_true, and_true]
  and_intros
  all_goals first
    | exact hsingle _
    | intro u _ c h; cases h

/-- A lexeme without a token is one character, or starts with `x` or `%`. -/
theorem rules_none : ∀ r ∈ rules, ∀ u ∈ r.regex.lang, r.action u = .none →
    u.length = 1 ∨ u.head? = some 'x' ∨ u.head? = some '%' := by
  simp only [rules, List.forall_mem_cons, List.not_mem_nil, IsEmpty.forall_iff, implies_true, and_true]
  and_intros
  all_goals first
    | intro u hu h; cases h; done
    | intro u hu _
  · rw [mem_chr.mp hu]
    exact Or.inl rfl
  · obtain ⟨x, hx, y, -, rfl⟩ := mem_seq.mp hu
    rw [mem_chr.mp hx]
    exact Or.inr (Or.inr rfl)
  · obtain ⟨x, hx, y, -, rfl⟩ := mem_seq.mp hu
    rw [mem_chr.mp hx]
    exact Or.inr (Or.inl rfl)
  · obtain ⟨c, -, rfl⟩ := mem_cls.mp hu
    exact Or.inl rfl

theorem integer_nameClass {u : Text} (h : u ∈ integer.lang) : ∀ c ∈ u, nameClass c = true := by
  obtain ⟨x, hx, y, hy, rfl⟩ := mem_seq.mp h
  intro c hc
  rcases List.mem_append.mp hc with hc | hc
  · rcases mem_opt.mp hx with rfl | hx
    · cases hc
    · rw [mem_chr.mp hx] at hc
      rw [List.mem_singleton.mp hc]
      rfl
  · exact digit_nameClass ((mem_plus_cls.mp hy).2 c hc)

/-- The lexemes of names and integers are runs of the name class. -/
theorem rules_nameClass : ∀ r ∈ rules, ∀ u ∈ r.regex.lang, ∀ s,
    r.action u = some (.name s) ∨ r.action u = some (.integer s) → ∀ c ∈ u, nameClass c = true := by
  simp only [rules, List.forall_mem_cons, List.not_mem_nil, IsEmpty.forall_iff, implies_true, and_true]
  and_intros
  all_goals first
    | intro u hu s h; rcases h with h | h <;> cases h; done
    | intro u hu s h
  · exact (nameClass_of_mem_name hu).1
  · exact integer_nameClass hu

/-- Some lexeme is taken: the default rule takes one character. -/
theorem best_exists (a : Char) (w : Text) : ∃ n r, Lexer.best (a :: w) rules = some (n + 1, r) ∧ r ∈ rules ∧
    ∃ u v, a :: w = u ++ v ∧ u.length = n + 1 ∧ u ∈ r.regex.lang ∧ scan (a :: w) = (r.action u).toList ++ scan v := by
  have hdefault : defaultRule ∈ rules := by simp [rules]
  have htakes : Lexer.Takes (a :: w) defaultRule 1 := ⟨by simp, a, rfl, rfl⟩
  cases hb : Lexer.best (a :: w) rules with
  | none => exact absurd htakes (Lexer.best_none hb _ hdefault 1)
  | some o =>
    obtain ⟨n, r⟩ := o
    obtain ⟨hmem, ht, hmax⟩ := Lexer.best_spec hb
    obtain ⟨k, rfl⟩ : ∃ k, n = k + 1 := ⟨n - 1, by have := hmax _ hdefault 1 htakes; omega⟩
    exact ⟨k, r, rfl, hmem, (a :: w).take (k + 1), (a :: w).drop (k + 1), (List.take_append_drop _ _).symm,
      List.length_take_of_le ht.1, ht.2, Lexer.scan_eq hb⟩

/-- A lexeme of two characters or more is no character token. -/
theorem scan_long {a : Char} {w : Text} {q : Rule Char Token} {n : Nat} (hx : a ≠ 'x') (hp : a ≠ '%') (hq : q ∈ rules)
    (ht : Lexer.Takes (a :: w) q n) (hn : 2 ≤ n) : ∃ t ts, scan (a :: w) = t :: ts ∧ ∀ c, t ≠ .char c := by
  obtain ⟨k, r, hb, hr, u, v, he, hlen, hu, hscan⟩ := best_exists a w
  have hk : n ≤ k + 1 := (Lexer.best_spec hb).2.2 q hq n ht
  cases hact : r.action u with
  | none =>
    exfalso
    have hhead : u.head? = some a := by
      cases u with
      | nil => cases hlen
      | cons b u => rw [(List.cons.inj he).1]; rfl
    rcases rules_none r hr u hu hact with h | h | h
    · omega
    · exact hx (Option.some.inj (hhead.symm.trans h))
    · exact hp (Option.some.inj (hhead.symm.trans h))
  | some t =>
    rw [hact] at hscan
    refine ⟨t, scan v, hscan, ?_⟩
    rintro c rfl
    rw [rules_char r hr u hu c hact] at hlen
    simp only [List.length_singleton] at hlen
    omega

/-! ## Operators and variables -/

/-- A minus sign that starts no number and no name. -/
theorem scan_minus_of {w : Text} (hw : NoInteger w) (hname : longest name ('-' :: w) = .none) :
    scan ('-' :: w) = .char '-' :: scan w := by
  have hno : NoInteger ('-' :: w) := by
    refine ⟨fun c hc => by cases hc; rfl, fun t ht => ?_⟩
    rw [← (List.cons.inj ht).2]
    exact hw.1
  have hreal : longest real ('-' :: w) = .none := by
    unfold real chr
    rw [longest_seq_opt, longest_seq_cls, if_pos (decide_eq_true rfl), longest_integer_seq_none hno,
      longest_integer_seq_none hw]
    rfl
  have hbest : Lexer.best (['-'] ++ w) [nameRule, integerRule, realRule, single '-', defaultRule] =
      some (1, single '-') := by
    simp [Lexer.best, nameRule, integerRule, realRule, single, hname, longest_integer_none hno, hreal, longest_chr,
      longest_default]
  exact scan_of_best rules_minus rfl hbest

/-- Minus signs behind which the name class ends. -/
theorem scan_minus_stops {A w : Text} (hA : ∀ c ∈ A, c = '-') (h : Stops nameClass w) :
    scan ('-' :: (A ++ w)) = .char '-' :: scan (A ++ w) := by
  have hdigit : Stops digit w := fun c hc => by
    by_contra hd
    rw [Bool.not_eq_false] at hd
    have := digit_nameClass hd
    rw [h c hc] at this
    cases this
  have hstops : ∀ B : Text, (∀ c ∈ B, c = '-') → Stops digit (B ++ w) := by
    intro B hB
    cases B with
    | nil => exact hdigit
    | cons b B =>
      intro c hc
      cases hc
      rw [hB b List.mem_cons_self]
      rfl
  have hA' : ∀ c ∈ '-' :: A, nameClass c = true ∧ alpha c = false := by
    intro c hc
    have hc : c = '-' := by
      rcases List.mem_cons.mp hc with rfl | hc
      · rfl
      · exact hA c hc
    rw [hc]
    decide
  refine scan_minus_of ⟨hstops A hA, fun t ht => ?_⟩
    (longest_name_none (A := '-' :: A) (fun c hc => (hA' c hc).1) (fun c hc => (hA' c hc).2) h)
  cases A with
  | nil =>
    rw [List.nil_append] at ht
    have := h '-' (by rw [ht]; rfl)
    cases this
  | cons b A =>
    rw [← (List.cons.inj ht).2]
    exact hstops A fun c hc => hA c (List.mem_cons_of_mem _ hc)

theorem scan_minus {w : Text} (h : Stops nameClass w) : scan ('-' :: w) = .char '-' :: scan w :=
  scan_minus_stops (A := []) (by simp) h

/-- A path goes on with a name, perhaps behind a dot. -/
theorem name_of_path {u v w : Text} (he : '/' :: w = u ++ v) (hu : u ∈ path.lang) :
    ∃ m ∈ name.lang, ∃ rest, w = m ++ rest ∨ w = '.' :: (m ++ rest) := by
  obtain ⟨x, hx, y, hy, rfl⟩ := mem_seq.mp hu
  obtain ⟨z, hz, g, -, rfl⟩ := mem_seq.mp hy
  obtain ⟨s, hs, f, hf, rfl⟩ := mem_seq.mp hz
  obtain ⟨d, hd, e, -, rfl⟩ := mem_seq.mp hf
  obtain ⟨o, ho, m, hm, rfl⟩ := mem_seq.mp hd
  rw [mem_chr.mp hs] at he
  rcases mem_opt.mp hx with rfl | hx
  · obtain ⟨-, he⟩ := List.cons.inj he
    rcases mem_opt.mp ho with rfl | ho
    · exact ⟨m, hm, e ++ g ++ v, Or.inl (by simpa using he)⟩
    · rw [mem_chr.mp ho] at he
      exact ⟨m, hm, e ++ g ++ v, Or.inr (by simpa using he)⟩
  · rw [mem_chr.mp hx] at he
    exact absurd (List.cons.inj he).1 (by decide)

theorem path_of_name {m : Text} (hm : m ∈ name.lang) : '/' :: m ∈ path.lang ∧ '/' :: '.' :: m ∈ path.lang := by
  have hfile : ∀ o ∈ (opt (chr '.')).lang, o ++ m ∈ file.lang := fun o ho =>
    mem_seq.mpr ⟨o ++ m, mem_seq.mpr ⟨o, ho, m, hm, rfl⟩, [], nil_mem_star, by simp⟩
  have hpath : ∀ f ∈ file.lang, '/' :: f ∈ path.lang := fun f hf =>
    mem_seq.mpr ⟨[], mem_opt.mpr (Or.inl rfl), '/' :: f,
      mem_seq.mpr ⟨'/' :: f, mem_seq.mpr ⟨['/'], mem_chr.mpr rfl, f, hf, rfl⟩, [], nil_mem_star, by simp⟩, rfl⟩
  exact ⟨hpath m (hfile [] (mem_opt.mpr (Or.inl rfl))), hpath _ (hfile ['.'] (mem_opt.mpr (Or.inr (mem_chr.mpr rfl))))⟩

theorem rules_slash : (rules.filter fun q => q.regex.first '/') = [pathRule, single '/', defaultRule] := rfl

/-- A slash behind which no name goes on. -/
theorem scan_slash {w : Text} (h : ∀ m ∈ name.lang, ∀ rest, w ≠ m ++ rest ∧ w ≠ '.' :: (m ++ rest)) :
    scan ('/' :: w) = .char '/' :: scan w := by
  have hpath : longest path ('/' :: w) = .none := by
    refine longest_eq_none_iff.mpr fun u v he hu => ?_
    obtain ⟨m, hm, rest, hw | hw⟩ := name_of_path he hu
    · exact (h m hm rest).1 hw
    · exact (h m hm rest).2 hw
  have hbest : Lexer.best (['/'] ++ w) [pathRule, single '/', defaultRule] = some (1, single '/') := by
    simp [Lexer.best, pathRule, single, hpath, longest_chr, longest_default]
  exact scan_of_best rules_slash rfl hbest

theorem length_pos_of_mem_name {m : Text} (h : m ∈ name.lang) : 1 ≤ m.length := by
  obtain ⟨-, c, hc, -⟩ := nameClass_of_mem_name h
  exact List.length_pos_of_mem hc

/-- A slash before a name is no operator. -/
theorem scan_path {m w rest : Text} (hm : m ∈ name.lang) (hw : w = m ++ rest ∨ w = '.' :: (m ++ rest)) :
    ∃ t ts, scan ('/' :: w) = t :: ts ∧ ∀ c, t ≠ .char c := by
  have hpos := length_pos_of_mem_name hm
  have hrule : pathRule ∈ rules := by simp [rules]
  rcases hw with rfl | rfl
  · refine scan_long (by decide) (by decide) hrule (n := m.length + 1) ⟨by simp, ?_⟩ (by omega)
    rw [List.take_succ_cons, List.take_left]
    exact (path_of_name hm).1
  · refine scan_long (by decide) (by decide) hrule (n := m.length + 2) ⟨by simp, ?_⟩ (by omega)
    rw [List.take_succ_cons, List.take_succ_cons, List.take_left]
    exact (path_of_name hm).2

/-- A variable before anything but a digit. -/
theorem scan_var {ds T : Text} (hne : ds ≠ []) (hds : ∀ c ∈ ds, digit c = true) (hT : Stops digit T) :
    scan ('$' :: (ds ++ T)) = .var (varToReference ('$' :: ds)) :: scan T := by
  have hvar : longest var ('$' :: (ds ++ T)) = some (ds.length + 1) := by
    unfold var chr
    rw [longest_seq_cls, if_pos (decide_eq_true rfl), longest_integer hne hds hT]
    rfl
  have hbest : Lexer.best (('$' :: ds) ++ T) [varRule, defaultRule] = some (('$' :: ds).length, varRule) := by
    simp [Lexer.best, varRule, hvar, longest_default]
  have hrules : (rules.filter fun q => q.regex.first '$') = [varRule, defaultRule] := rfl
  exact scan_of_best hrules rfl hbest

theorem scan_reduction (s : Text) : scan ("REDUCTION:=".toList ++ s) = .reductionField :: scan s := by
  have hname : longest name ("REDUCTION".toList ++ (":=".toList ++ s)) = some 9 :=
    longest_name_run (mem_name.mpr (Or.inl ⟨'R', "EDUCTION".toList, rfl, rfl, by decide⟩)) fun c hc => by cases hc; rfl
  have hkeyword : longest (lit "REDUCTION:=".toList) ("REDUCTION:=".toList ++ s) = some 11 := by
    refine longest_eq_some_iff.mpr ⟨_, s, rfl, rfl, mem_lit.mpr rfl, fun u v _ hu => ?_⟩
    rw [mem_lit.mp hu]
    rfl
  have hbest : Lexer.best ("REDUCTION:=".toList ++ s) [keyword "REDUCTION:=" .reductionField, nameRule, defaultRule] =
      some (11, keyword "REDUCTION:=" .reductionField) := by
    have hname' : longest name ("REDUCTION:=".toList ++ s) = some 9 := hname
    have hdefault : longest defaultRule.regex ("REDUCTION:=".toList ++ s) = some 1 := longest_default 'R' _
    simp only [Lexer.best, keyword, nameRule, hname', hkeyword, hdefault]
    rfl
  have hrules : (rules.filter fun q => q.regex.first 'R') =
      [keyword "REDUCTION:=" .reductionField, nameRule, defaultRule] := rfl
  exact scan_of_best hrules rfl hbest

/-! ## Names before a space or an equals sign -/

section NameLexeme
variable {A T : Text} {c : Char} {m : Nat}

/-- No match inside a run of the name class before `c` reaches a colon. -/
theorem no_colon {k rest : Text} (hA : ∀ a ∈ A, nameClass a = true) (hc : nameClass c = false) (hcolon : c ≠ ':')
    (hk : ∀ a ∈ k, nameClass a = true) : A ++ c :: T ≠ k ++ ':' :: rest := by
  intro he
  obtain ⟨es, rfl, hes⟩ := run_split hA hk (fun a ha => by cases ha; exact hc) he
  cases es with
  | nil => exact hcolon (List.cons.inj hes).1.symm
  | cons b es =>
    obtain ⟨rfl, -⟩ := List.cons.inj hes
    have := hA ':' (by simp)
    cases this

theorem no_keyword {k : String} {t : Token} {w : Text} (hA : ∀ a ∈ A, nameClass a = true) (hc : nameClass c = false)
    (hcolon : c ≠ ':') (hk : k.toList = w ++ ":=".toList) (hw : ∀ a ∈ w, nameClass a = true) :
    ¬ Lexer.Takes (A ++ c :: T) (keyword k t) m := by
  rintro ⟨-, hmem⟩
  have happ := List.take_append_drop m (A ++ c :: T)
  rw [mem_lit.mp hmem, hk] at happ
  refine absurd happ.symm ?_
  rw [List.append_assoc]
  exact no_colon hA hc hcolon hw

/-- The counters match the empty word there. -/
theorem no_counter {p w z : Text} (hA : ∀ a ∈ A, nameClass a = true) (hc : nameClass c = false)
    (hcolon : c ≠ ':') (hw : ∀ a ∈ w, nameClass a = true) (hp : p = w ++ ':' :: z)
    {f : Text → Option Token} (h : Lexer.Takes (A ++ c :: T) ⟨seq (opt (seq (lit p) name)) (star ctrAttr), f⟩ m) :
    m = 0 := by
  obtain ⟨hle, hmem⟩ := h
  have happ := List.take_append_drop m (A ++ c :: T)
  obtain ⟨x, hx, y, hy, hxy⟩ := mem_seq.mp hmem
  rw [hxy] at happ
  have hlen : m = (x ++ y).length := by rw [← hxy, List.length_take_of_le hle]
  rcases mem_opt.mp hx with rfl | hx
  · cases y with
    | nil => exact hlen
    | cons b y =>
      obtain ⟨u, v, hu, -, rfl⟩ := mem_star_cons.mp hy
      have hb : b = ':' := by
        have hfirst := first_of_mem hu
        simpa [ctrAttr, first, chr, nullable] using hfirst
      subst hb
      exact absurd happ.symm (no_colon (k := []) hA hc hcolon (by simp))
  · obtain ⟨l, hl, n, -, rfl⟩ := mem_seq.mp hx
    rw [mem_lit.mp hl, hp] at happ
    refine absurd happ.symm ?_
    rw [List.append_assoc, List.append_assoc, List.append_assoc, List.cons_append]
    exact no_colon hA hc hcolon hw

theorem space_equals {c : Char} (h : c = ' ' ∨ c = '=') : nameClass c = false ∧ c ≠ ':' := by
  rcases h with rfl | rfl <;> exact ⟨rfl, by decide⟩

/-- A name before a space or an equals sign, unless it is `x`. -/
theorem scan_name (hA : A ∈ name.lang) (hx : A ≠ ['x']) (h : c = ' ' ∨ c = '=') :
    scan (A ++ c :: T) = .name A :: scan (c :: T) := by
  obtain ⟨hc, hcolon⟩ := space_equals h
  have hclass := (nameClass_of_mem_name hA).1
  cases A with
  | nil => exact absurd (length_pos_of_mem_name hA) (by simp)
  | cons a A =>
    have ha := hclass a List.mem_cons_self
    have htakes : Lexer.Takes (a :: A ++ c :: T) nameRule (a :: A).length :=
      ⟨by simp, by rw [List.take_left]; exact hA⟩
    have hmax : ∀ m, Lexer.Takes (a :: A ++ c :: T) nameRule m → m ≤ (a :: A).length := by
      intro m hm
      obtain ⟨es, hes, -⟩ := run_split hclass (nameClass_of_mem_name hm.2).1 (fun d hd => by cases hd; exact hc)
        (List.take_append_drop m _).symm
      have hlen := congrArg List.length hes
      rw [List.length_append, List.length_take_of_le hm.1] at hlen
      omega
    have hbest : Lexer.best (a :: A ++ c :: T) rules = some ((a :: A).length, nameRule) := by
      show Lexer.best _ (rules.take 7 ++ nameRule :: rules.drop 8) = _
      refine Lexer.best_eq_some htakes hmax ?_ ?_
      · have hno : ∀ k : String, ∀ t : Token, ∀ w : Text, k.toList = w ++ ":=".toList → (∀ b ∈ w, nameClass b = true) →
            ∀ m, Lexer.Takes (a :: A ++ c :: T) (keyword k t) m → m < (a :: A).length :=
          fun k t w hk hw m hm => absurd hm (no_keyword hclass hc hcolon hk hw)
        simp only [rules, List.take_succ_cons, List.take_zero, List.forall_mem_cons, List.not_mem_nil,
          IsEmpty.forall_iff, implies_true, and_true]
        exact ⟨hno _ _ "OBJ".toList rfl (by decide), hno _ _ "EVSET".toList rfl (by decide),
          hno _ _ "PERF_LIB".toList rfl (by decide), hno _ _ "REDUCTION".toList rfl (by decide),
          hno _ _ "WINDOW".toList rfl (by decide), hno _ _ "DISPLAY".toList rfl (by decide),
          hno _ _ "OUTPUT".toList rfl (by decide)⟩
      · have hle : ∀ q : Rule Char Token, (q.regex.first a = true → q.regex.inner c = false) →
            ∀ m, Lexer.Takes (a :: A ++ c :: T) q m → m ≤ (a :: A).length :=
          fun q hq m hm => Lexer.takes_le hq hm
        simp only [rules, List.drop_succ_cons, List.drop_zero, List.forall_mem_cons, List.not_mem_nil,
          IsEmpty.forall_iff, implies_true, and_true]
        refine ⟨?_, ?_, ?_⟩
        · intro m hm
          rw [no_counter hclass hc hcolon (w := "perf".toList) (z := [':']) (by decide) rfl hm]
          exact Nat.zero_le _
        · intro m hm
          rw [no_counter hclass hc hcolon (w := "net".toList) (z := [':', ':']) (by decide) rfl hm]
          exact Nat.zero_le _
        and_intros
        all_goals try (apply hle; intro _; rcases h with rfl | rfl <;> rfl)
        · -- a comment starts outside the class
          intro m hm
          have ha' : a ≠ '%' := by rintro rfl; cases ha
          rw [Lexer.takes_of_not_first (by simp [first, chr, ha', nullable]) hm]
          exact Nat.zero_le _
        · intro m hm
          obtain ⟨x, hmx, y, ⟨d, -, rfl⟩, hxy⟩ := mem_seq.mp hm.2
          rw [mem_chr.mp hmx] at hxy
          have hm2 : m = 2 := by rw [← List.length_take_of_le hm.1, hxy]; rfl
          cases A with
          | nil =>
            have hax : a ≠ 'x' := by rintro rfl; exact hx rfl
            rw [Lexer.takes_of_not_first (by simp [first, chr, hax, nullable]) hm]
            exact Nat.zero_le _
          | cons b A =>
            simp only [List.length_cons]
            omega
    have hscan := Lexer.scan_eq hbest
    rw [show A.length + 1 = (a :: A).length from rfl, List.take_left, List.drop_left] at hscan
    exact hscan

/-- The rule `x.` takes the name `x` with the next character. -/
theorem scan_x (h : c = ' ' ∨ c = '=') : scan ('x' :: c :: T) = scan T := by
  obtain ⟨hc, -⟩ := space_equals h
  have hname : longest name ('x' :: c :: T) = some 1 :=
    longest_name_run (A := ['x']) (mem_name.mpr (Or.inl ⟨'x', [], rfl, rfl, by simp⟩))
      fun d hd => by cases hd; exact hc
  have hne : (c != '\n') = true := by rcases h with rfl | rfl <;> rfl
  have hx : longest (seq (chr 'x') (cls fun c => c != '\n')) ('x' :: c :: T) = some 2 := by
    unfold chr
    rw [longest_seq_cls, if_pos (decide_eq_true rfl), ← longest_seq_eps, longest_seq_cls, if_pos hne, longest_eps]
    rfl
  have hrules : (rules.filter fun q => q.regex.first 'x') =
      [nameRule, ⟨seq (chr 'x') (cls fun c => c != '\n'), fun _ => .none⟩, defaultRule] := rfl
  have hbest : Lexer.best (['x', c] ++ T)
      [nameRule, ⟨seq (chr 'x') (cls fun c => c != '\n'), fun _ => .none⟩, defaultRule] =
      some (2, ⟨seq (chr 'x') (cls fun c => c != '\n'), fun _ => .none⟩) := by
    simp [Lexer.best, nameRule, hname, hx, longest_default]
  exact scan_of_best hrules rfl hbest

end NameLexeme

/-! ## Texts before a comma or a semicolon -/

def separator (c : Char) : Bool := c == ',' || c == ';'

theorem scan_separator {c : Char} (h : separator c = true) (s : Text) : scan (c :: s) = .char c :: scan s := by
  have hc : c = ',' ∨ c = ';' := by simpa [separator] using h
  rcases hc with rfl | rfl
  · exact scan_comma s
  · exact scan_semicolon s

theorem separator_not_class {c : Char} (h : separator c = true) : nameClass c = false := by
  have hc : c = ',' ∨ c = ';' := by simpa [separator] using h
  rcases hc with rfl | rfl <;> rfl

section Separator
variable {A T : Text} {c : Char} {t : Token} {ts : List Token}

/-- The first token of a text without `x` and `%` before a separator. -/
theorem scan_first (hA : ∀ a ∈ A, a ≠ 'x' ∧ a ≠ '%') (hc : separator c = true) (h : scan (A ++ c :: T) = t :: ts) :
    t = .char c ∨ ∃ r ∈ rules, ∃ u v B, u ∈ r.regex.lang ∧ u ≠ [] ∧ r.action u = some t ∧ ts = scan v ∧
      (∀ a ∈ B, a ∈ A) ∧ B ++ c :: T = u ++ v := by
  induction A with
  | nil =>
    rw [List.nil_append, scan_separator hc] at h
    exact Or.inl (List.cons.inj h).1.symm
  | cons a A ih =>
    obtain ⟨n, r, -, hr, u, v, he, hlen, hu, hscan⟩ := best_exists a (A ++ c :: T)
    have hne : u ≠ [] := by rintro rfl; cases hlen
    rw [List.cons_append, hscan] at h
    cases hact : r.action u with
    | some t' =>
      rw [hact] at h
      obtain ⟨rfl, rfl⟩ := List.cons.inj h
      exact Or.inr ⟨r, hr, u, v, a :: A, hu, hne, hact, rfl, fun _ h => h, he⟩
    | none =>
      -- a lexeme without a token is one character here
      have hone : u = [a] ∧ v = A ++ c :: T := by
        cases u with
        | nil => exact absurd rfl hne
        | cons b u =>
          obtain ⟨rfl, he⟩ := List.cons.inj he
          have hb := hA a List.mem_cons_self
          rcases rules_none r hr _ hu hact with h | h | h
          · have hnil : u = [] := List.length_eq_zero_iff.mp (Nat.succ.inj h)
            subst hnil
            exact ⟨rfl, (List.cons.inj he).2.symm⟩
          · exact absurd (Option.some.inj h) hb.1
          · exact absurd (Option.some.inj h) hb.2
      obtain ⟨rfl, rfl⟩ := hone
      rw [hact] at h
      rcases ih (fun b hb => hA b (List.mem_cons_of_mem _ hb)) h with h | ⟨r, hr, u, v, B, hu, hne, hact, hts, hB, he⟩
      · exact Or.inl h
      · exact Or.inr ⟨r, hr, u, v, B, hu, hne, hact, hts, fun b hb => List.mem_cons_of_mem _ (hB b hb), he⟩

/-- A first character token is a character of the text. -/
theorem scan_first_char (hA : ∀ a ∈ A, a ≠ 'x' ∧ a ≠ '%') (hc : separator c = true) {d : Char}
    (h : scan (A ++ c :: T) = .char d :: ts) : d = c ∨ d ∈ A := by
  rcases scan_first hA hc h with h | ⟨r, hr, u, v, B, hu, -, hact, -, hB, he⟩
  · exact Or.inl (Token.char.inj h)
  · rw [rules_char r hr u hu d hact] at he
    cases B with
    | nil => exact Or.inl (List.cons.inj he).1.symm
    | cons b B => exact Or.inr (hB d ((List.cons.inj he).1 ▸ List.mem_cons_self))

/-- So is a character token behind a name or an integer. -/
theorem scan_second_char (hA : ∀ a ∈ A, a ≠ 'x' ∧ a ≠ '%') (hc : separator c = true) {s : Text} {d : Char}
    (ht : t = .name s ∨ t = .integer s) (h : scan (A ++ c :: T) = t :: .char d :: ts) : d = c ∨ d ∈ A := by
  rcases scan_first hA hc h with h | ⟨r, hr, u, v, B, hu, -, hact, hts, hB, he⟩
  · rcases ht with rfl | rfl <;> cases h
  · have hclass := rules_nameClass r hr u hu s <| by
      rcases ht with rfl | rfl
      · exact Or.inl hact
      · exact Or.inr hact
    obtain ⟨es, rfl, rfl⟩ : ∃ es, B = u ++ es ∧ v = es ++ c :: T := by
      rcases List.append_eq_append_iff.mp he with ⟨es, rfl, hv⟩ | ⟨es, hu, hv⟩
      · cases es with
        | nil => exact ⟨[], by simp, by simpa using hv.symm⟩
        | cons b es =>
          obtain ⟨rfl, -⟩ := List.cons.inj hv
          have := hclass c (by simp)
          rw [separator_not_class hc] at this
          cases this
      · exact ⟨es, hu, hv⟩
    have hes : ∀ a ∈ es, a ∈ A := fun a ha => hB a (List.mem_append_right _ ha)
    exact (scan_first_char (fun a ha => hA a (hes a ha)) hc hts.symm).imp id (hes d)

end Separator

end Hmon.Config
