import Mathlib.Algebra.Order.Ring.Int
import Mathlib.Data.List.DropRight
import Mathlib.Data.List.TakeWhile

/-!
# `scanf`

* `Conversion`, `Directive`, `scanf` : the directives of a format, and what a call converts;
* `showInt`, `unwords` : printed numbers, and words between blanks;
* `Reads`, `reads_showInt` : a word that a conversion reads to its end; a numeric one so reads printed numbers;
* `scanf_spaced` : **conversions with blanks between them read words with blanks between them, one by one**;
* `scanfLiteral` : a format that begins with a literal text;
* `scanf_numbers` : numeric conversions do not get past a letter, and each of them takes two characters.
-/

namespace Hmon.Lib

/-! ## The input -/

/-- `isspace` in the C locale. -/
def isspace (c : Char) : Bool := c.toNat = 32 || (9 ≤ c.toNat && c.toNat ≤ 13)

def dropWhite (s : List Char) : List Char := s.dropWhile isspace

/-- The input ends, or goes on with white space. -/
def Blank (s : List Char) : Prop := ∀ c ∈ s.head?, isspace c = true

/-! ## Conversions -/

inductive Conversion
  | d
  | ld
  | u
  | lu
  | llu
  | s
  | c
  deriving DecidableEq

inductive Value
  | num (n : Int)
  | word (s : List Char)
  | char (c : Char)
  deriving DecidableEq

/-- Why a conversion ends the call. -/
inductive Failure
  | matching
  | input
  deriving DecidableEq

/-- `strtol` and `strtoul` on a sign and a magnitude: what is out of range becomes the nearest `long`, or the largest
`unsigned long`, which a sign negates. -/
def strtol (negative : Bool) (n : Nat) : Int :=
  if negative then -(min n (2 ^ 63) : Nat) else (min n (2 ^ 63 - 1) : Nat)

def strtoul (negative : Bool) (n : Nat) : Int :=
  if 2 ^ 64 ≤ n then 2 ^ 64 - 1 else if negative then (-(n : Int)) % 2 ^ 64 else n

namespace Conversion

def numeric : Conversion → Bool
  | d | ld | u | lu | llu => true
  | s | c => false

/-- The value of the digits, before it is stored. -/
def value : Conversion → Bool → Nat → Int
  | d, negative, n | ld, negative, n => strtol negative n
  | _, negative, n => strtoul negative n

/-- The digits of a number, behind its sign. -/
def readDigits (k : Conversion) (negative : Bool) (input : List Char) : Except Failure (Value × List Char) :=
  let digits := input.takeWhile Char.isDigit
  if digits = [] then .error .matching
  else .ok (.num (k.value negative (Nat.ofDigitChars 10 digits 0)), input.dropWhile Char.isDigit)

/-- The conversion of a number: white space, an optional sign, and the digits. -/
def readNumber (k : Conversion) (input : List Char) : Except Failure (Value × List Char) :=
  match dropWhite input with
  | [] => .error .input
  | '-' :: t => k.readDigits true t
  | '+' :: t => k.readDigits false t
  | t => k.readDigits false t

/-- One conversion: its value and the rest of the input. All but `%c` skip white space. -/
def read : Conversion → List Char → Except Failure (Value × List Char)
  | c, [] => .error .input
  | c, x :: t => .ok (.char x, t)
  | s, input =>
    match dropWhite input with
    | [] => .error .input
    | x :: t => .ok (.word (x :: t.takeWhile (!isspace ·)), t.dropWhile (!isspace ·))
  | k, input => k.readNumber input

end Conversion

/-! ## Formats -/

/-- A directive of a format: white space, a conversion with its argument, or one with `*`. -/
inductive Directive
  | white
  | store (k : Conversion)
  | skip (k : Conversion)

/-- The values that a call stores, in order, and why it ended early. -/
def scanf : List Directive → List Char → List Value × Option Failure
  | [], _ => ([], none)
  | .white :: format, s => scanf format (dropWhite s)
  | .store k :: format, s =>
    match k.read s with
    | .error e => ([], some e)
    | .ok (v, s) => (v :: (scanf format s).1, (scanf format s).2)
  | .skip k :: format, s =>
    match k.read s with
    | .error e => ([], some e)
    | .ok (_, s) => scanf format s

/-- A format that begins with a literal text. -/
def scanfLiteral : (literal : List Char) → List Directive → List Char → List Value × Option Failure
  | [], format, s => scanf format s
  | _ :: _, _, [] => ([], some .input)
  | c :: literal, format, x :: s => if x = c then scanfLiteral literal format s else ([], some .matching)

/-- `EOF`. -/
def eof : Int := -1

/-- The returned number of stored values, `EOF` when the input ends before anything is stored. -/
def scanfResult (r : List Value × Option Failure) : Int :=
  if r.1 = [] ∧ r.2 = some .input then eof else r.1.length

/-- White space before each conversion, and between them only. -/
def blanked (format : List Directive) : List Directive := format.flatMap fun x => [.white, x]

def spaced : List Directive → List Directive
  | [] => []
  | x :: format => x :: blanked format

/-! ## Words -/

/-- A blank before each word, and between them only. -/
def blankWords (words : List (List Char)) : List Char := words.flatMap (' ' :: ·)

def unwords : List (List Char) → List Char
  | [] => []
  | w :: words => w ++ blankWords words

/-- A printed number. -/
def showInt : Int → List Char
  | .ofNat n => Nat.toDigits 10 n
  | .negSucc n => '-' :: Nat.toDigits 10 (n + 1)

/-- The conversion reads the word `w` as `v`, up to white space. -/
structure Reads (k : Conversion) (w : List Char) (v : Value) : Prop where
  solid : ∃ x t, w = x :: t ∧ isspace x = false
  read : ∀ rest, Blank rest → k.read (w ++ rest) = .ok (v, rest)

theorem dropWhite_solid {x : Char} (hx : isspace x = false) (s : List Char) : dropWhite (x :: s) = x :: s :=
  List.dropWhile_cons_of_neg (by simp [hx])

theorem takeWhile_dropWhile {p : Char → Bool} {w rest : List Char} (hw : ∀ x ∈ w, p x = true)
    (hrest : ∀ x ∈ rest.head?, p x = false) :
    (w ++ rest).takeWhile p = w ∧ (w ++ rest).dropWhile p = rest := by
  rw [List.takeWhile_append_of_pos hw, List.dropWhile_append_of_pos hw]
  cases rest with
  | nil => simp
  | cons x rest =>
    have hx : p x = false := hrest x rfl
    rw [List.takeWhile_cons_of_neg (by simp [hx]), List.dropWhile_cons_of_neg (by simp [hx]), List.append_nil]
    exact ⟨rfl, rfl⟩

/-! ### Printed numbers -/

theorem isspace_digit {x : Char} (h : x.isDigit = true) : isspace x = false := by
  simp only [Char.isDigit, Bool.and_eq_true, decide_eq_true_eq, ge_iff_le, UInt32.le_iff_toNat_le] at h
  have h₀ : 48 ≤ x.toNat := h.1
  simp only [isspace, Bool.or_eq_false_iff, decide_eq_false_iff_not, Bool.and_eq_false_imp, decide_eq_true_eq]
  omega

theorem not_digit_of_blank {s : List Char} (h : Blank s) : ∀ x ∈ s.head?, x.isDigit = false := by
  intro x hx
  rw [← Bool.not_eq_true]
  intro hd
  have := isspace_digit hd
  rw [h x hx] at this
  cases this

theorem digit_toDigits (n : Nat) : ∀ x ∈ Nat.toDigits 10 n, x.isDigit = true :=
  fun _ hx => Nat.isDigit_of_mem_toDigits (by decide) (by decide) hx

/-- Without a sign the digits are at the start. -/
theorem readNumber_unsigned (k : Conversion) {x : Char} (hs : isspace x = false) (hm : x ≠ '-') (hp : x ≠ '+')
    (t : List Char) : k.readNumber (x :: t) = k.readDigits false (x :: t) := by
  unfold Conversion.readNumber
  rw [dropWhite_solid hs]
  split
  · next h => cases h
  · next h => cases h; exact absurd rfl hm
  · next h => cases h; exact absurd rfl hp
  · rfl

theorem readDigits_toDigits (k : Conversion) (negative : Bool) (n : Nat) {rest : List Char} (hrest : Blank rest) :
    k.readDigits negative (Nat.toDigits 10 n ++ rest) = .ok (.num (k.value negative n), rest) := by
  obtain ⟨htake, hdrop⟩ := takeWhile_dropWhile (digit_toDigits n) (not_digit_of_blank hrest)
  unfold Conversion.readDigits
  simp only [htake, hdrop]
  rw [if_neg Nat.toDigits_ne_nil, Nat.ofDigitChars_ten_toDigits]

theorem Conversion.read_numeric {k : Conversion} (hk : k.numeric = true) (input : List Char) :
    k.read input = k.readNumber input := by
  cases k with
  | d | ld | u | lu | llu => rfl
  | s | c => cases hk

/-- A numeric conversion reads a printed number, whatever its sign. -/
theorem reads_showInt {k : Conversion} (hk : k.numeric = true) (i : Int) :
    Reads k (showInt i) (.num (k.value (decide (i < 0)) i.natAbs)) := by
  cases i with
  | ofNat n =>
    obtain ⟨x, t, hw⟩ := List.exists_cons_of_ne_nil (Nat.toDigits_ne_nil (n := n))
    have hx : x.isDigit = true := digit_toDigits n x (by rw [hw]; exact List.mem_cons_self)
    refine ⟨⟨x, t, hw, isspace_digit hx⟩, fun rest hrest => ?_⟩
    have hdigits := readDigits_toDigits k false n hrest
    rw [hw, List.cons_append, ← readNumber_unsigned k (isspace_digit hx) (by rintro rfl; cases hx)
      (by rintro rfl; cases hx), ← List.cons_append, ← hw] at hdigits
    rw [Conversion.read_numeric hk]
    exact hdigits
  | negSucc n =>
    refine ⟨⟨'-', _, rfl, by decide⟩, fun rest hrest => ?_⟩
    rw [decide_eq_true (Int.negSucc_lt_zero n), Conversion.read_numeric hk]
    exact readDigits_toDigits k true (n + 1) hrest

/-- A `long` is read back, -/
theorem reads_long {k : Conversion} (hk : k = .d ∨ k = .ld) {i : Int} (h : -2 ^ 63 ≤ i ∧ i < 2 ^ 63) :
    Reads k (showInt i) (.num i) := by
  have hvalue : k.value (decide (i < 0)) i.natAbs = i := by
    have hlong : strtol (decide (i < 0)) i.natAbs = i := by
      unfold strtol
      by_cases hi : i < 0
      · rw [if_pos (decide_eq_true hi)]
        omega
      · rw [if_neg (by simpa using hi)]
        omega
    rcases hk with rfl | rfl <;> exact hlong
  have hnumeric : k.numeric = true := by rcases hk with rfl | rfl <;> rfl
  have hreads := reads_showInt hnumeric i
  rwa [hvalue] at hreads

/-- and so is an `unsigned long`. -/
theorem reads_ulong {k : Conversion} (hk : k = .u ∨ k = .lu ∨ k = .llu) {n : Nat} (h : n < 2 ^ 64) :
    Reads k (showInt n) (.num n) := by
  have hvalue : k.value (decide ((n : Int) < 0)) (n : Int).natAbs = n := by
    have hlong : strtoul (decide ((n : Int) < 0)) (n : Int).natAbs = n := by
      rw [decide_eq_false (by omega), strtoul, Int.natAbs_natCast, if_neg (by omega)]
      rfl
    rcases hk with rfl | rfl | rfl <;> exact hlong
  have hnumeric : k.numeric = true := by rcases hk with rfl | rfl | rfl <;> rfl
  have hreads := reads_showInt hnumeric n
  rwa [hvalue] at hreads

theorem reads_char {x : Char} (hx : isspace x = false) : Reads .c [x] (.char x) :=
  ⟨⟨x, [], rfl, hx⟩, fun _ _ => rfl⟩

theorem reads_word {x : Char} {w : List Char} (hw : ∀ y ∈ x :: w, isspace y = false) :
    Reads .s (x :: w) (.word (x :: w)) := by
  have hx : isspace x = false := hw x List.mem_cons_self
  refine ⟨⟨x, w, rfl, hx⟩, fun rest hrest => ?_⟩
  obtain ⟨htake, hdrop⟩ := takeWhile_dropWhile (p := fun y => !isspace y)
    (fun y hy => by rw [hw y (List.mem_cons_of_mem x hy)]; rfl) (fun y hy => by rw [hrest y hy]; rfl)
  rw [List.cons_append, Conversion.read, dropWhite_solid hx]
  simp only [htake, hdrop]

/-! ## A format and its words -/

/-- The directives read the words, and the values are stored. -/
inductive ReadsAll : List Directive → List (List Char) → List Value → Prop
  | nil : ReadsAll [] [] []
  | store {k : Conversion} {w : List Char} {v : Value} {format : List Directive} {words : List (List Char)}
      {values : List Value} : Reads k w v → ReadsAll format words values →
      ReadsAll (.store k :: format) (w :: words) (v :: values)
  | skip {k : Conversion} {w : List Char} {v : Value} {format : List Directive} {words : List (List Char)}
      {values : List Value} : Reads k w v → ReadsAll format words values →
      ReadsAll (.skip k :: format) (w :: words) values

theorem blank_blankWords (words : List (List Char)) {rest : List Char} (hrest : Blank rest) :
    Blank (blankWords words ++ rest) := by
  cases words with
  | nil => exact hrest
  | cons w words =>
    intro x hx
    obtain rfl := Option.some.inj hx
    rfl

theorem unwords_append {words : List (List Char)} (h : words ≠ []) (words' : List (List Char)) :
    unwords (words ++ words') = unwords words ++ blankWords words' := by
  obtain ⟨w, words, rfl⟩ := List.exists_cons_of_ne_nil h
  rw [List.cons_append, unwords, unwords, blankWords, List.flatMap_append, ← List.append_assoc]
  rfl

/-- The words are read, and then the other directives read on. -/
theorem scanf_blanked_append {format : List Directive} {words : List (List Char)} {values : List Value}
    (h : ReadsAll format words values) (format' : List Directive) {rest : List Char} (hrest : Blank rest) :
    scanf (blanked (format ++ format')) (blankWords words ++ rest) =
      (values ++ (scanf (blanked format') rest).1, (scanf (blanked format') rest).2) := by
  have hskip : ∀ {k : Conversion} {w : List Char} {v : Value}, Reads k w v → ∀ tail,
      dropWhite (' ' :: (w ++ tail)) = w ++ tail := by
    intro k w v hr tail
    obtain ⟨x, t, rfl, hx⟩ := hr.solid
    exact dropWhite_solid hx _
  induction h with
  | nil => rfl
  | @store k w v format words values hr hall ih =>
    show scanf (.white :: .store k :: blanked (format ++ format')) (' ' :: (w ++ blankWords words) ++ rest) = _
    rw [List.cons_append, List.append_assoc, scanf, hskip hr, scanf, hr.read _ (blank_blankWords words hrest)]
    simp only [ih]
    rfl
  | @skip k w v format words values hr hall ih =>
    show scanf (.white :: .skip k :: blanked (format ++ format')) (' ' :: (w ++ blankWords words) ++ rest) = _
    rw [List.cons_append, List.append_assoc, scanf, hskip hr, scanf, hr.read _ (blank_blankWords words hrest)]
    exact ih

theorem scanf_blanked {format : List Directive} {words : List (List Char)} {values : List Value}
    (h : ReadsAll format words values) {rest : List Char} (hrest : Blank rest) :
    scanf (blanked format) (blankWords words ++ rest) = (values, none) := by
  have happend := scanf_blanked_append h [] hrest
  rw [List.append_nil] at happend
  rw [happend]
  exact congrArg (·, none) (List.append_nil values)

/-- **Conversions with white space between them read words with blanks between them, one by one.** -/
theorem scanf_spaced {format : List Directive} {words : List (List Char)} {values : List Value}
    (h : ReadsAll format words values) {rest : List Char} (hrest : Blank rest) :
    scanf (spaced format) (unwords words ++ rest) = (values, none) := by
  cases h with
  | nil => rfl
  | store hr hall | skip hr hall =>
    rw [spaced, unwords, List.append_assoc, scanf, hr.read _ (blank_blankWords _ hrest)]
    simp only [scanf_blanked hall hrest]

/-! ## Literals -/

theorem scanfLiteral_append (literal : List Char) (format : List Directive) (s : List Char) :
    scanfLiteral literal format (literal ++ s) = scanf format s := by
  induction literal with
  | nil => rfl
  | cons c literal ih => exact (if_pos rfl).trans ih

/-- A line that does not begin with the literal does not match it. -/
theorem scanfLiteral_mismatch {literal : List Char} (hliteral : '\n' ∉ literal) (format : List Directive)
    {t : List Char} (h : ¬ literal <+: t) : scanfLiteral literal format (t ++ ['\n']) = ([], some .matching) := by
  induction literal generalizing t with
  | nil => exact absurd List.nil_prefix h
  | cons c literal ih =>
    obtain ⟨hc, htail⟩ := not_or.mp (List.mem_cons.not.mp hliteral)
    cases t with
    | nil => exact if_neg hc
    | cons x t =>
      by_cases hx : x = c
      · subst hx
        have hrest : ¬ literal <+: t := fun hp => h (List.cons_prefix_cons.mpr ⟨rfl, hp⟩)
        exact (if_pos rfl).trans (ih htail hrest)
      · exact if_neg hx

/-- A number may be preceded by white space. -/
theorem scanf_store_white {k : Conversion} (hk : k.numeric = true) {x : Char} (hx : isspace x = true)
    (format : List Directive) (s : List Char) :
    scanf (.store k :: format) (x :: s) = scanf (.store k :: format) s := by
  have hread : k.readNumber (x :: s) = k.readNumber s := by
    unfold Conversion.readNumber
    rw [show dropWhite (x :: s) = dropWhite s from List.dropWhile_cons_of_pos hx]
  rw [scanf, scanf, Conversion.read_numeric hk, Conversion.read_numeric hk, hread]

/-! ## Numbers up to a letter -/

/-- A character that is no part of a number, nor white space. -/
structure Foreign (x : Char) : Prop where
  solid : isspace x = false
  noDigit : x.isDigit = false
  noMinus : x ≠ '-'
  noPlus : x ≠ '+'

/-- 1 where a number can start without a separator. -/
def lead : List Char → Nat
  | [] => 0
  | x :: _ => if x.isDigit then 1 else 0

theorem lead_dropWhile (u : List Char) : lead (u.dropWhile Char.isDigit) = 0 := by
  induction u with
  | nil => rfl
  | cons y u ih =>
    by_cases hy : y.isDigit = true
    · rw [List.dropWhile_cons_of_pos hy, ih]
    · rw [List.dropWhile_cons_of_neg hy, lead, if_neg hy]

theorem lead_le (u : List Char) : lead u ≤ 1 := by
  cases u with
  | nil => exact Nat.zero_le 1
  | cons y u =>
    rw [lead]
    split_ifs <;> omega

theorem takeWhile_dropWhile_foreign {p : Char → Bool} {x : Char} (hx : p x = false) (u v : List Char) :
    (u ++ x :: v).takeWhile p = u.takeWhile p ∧ (u ++ x :: v).dropWhile p = u.dropWhile p ++ x :: v := by
  induction u with
  | nil => simp [hx]
  | cons y u ih =>
    by_cases hy : p y = true
    · simp [hy, ih]
    · simp [hy]

/-- Digits before a foreign character. -/
theorem readDigits_foreign (k : Conversion) (negative : Bool) {x : Char} (hx : Foreign x) (u v : List Char) :
    (∃ e, k.readDigits negative (u ++ x :: v) = .error e) ∨
      ∃ n u', k.readDigits negative (u ++ x :: v) = .ok (n, u' ++ x :: v) ∧ lead u' = 0 ∧
        u'.length + 1 ≤ u.length ∧ lead u = 1 := by
  obtain ⟨htake, hdrop⟩ := takeWhile_dropWhile_foreign hx.noDigit u v
  unfold Conversion.readDigits
  simp only [htake, hdrop]
  cases u with
  | nil => exact .inl ⟨_, rfl⟩
  | cons y u =>
    by_cases hy : y.isDigit = true
    · rw [List.takeWhile_cons_of_pos hy, List.dropWhile_cons_of_pos hy, if_neg (List.cons_ne_nil _ _)]
      have hlen : (u.dropWhile Char.isDigit).length ≤ u.length := List.length_dropWhile_le _ u
      exact .inr ⟨_, _, rfl, lead_dropWhile u, Nat.succ_le_succ hlen, if_pos hy⟩
    · rw [List.takeWhile_cons_of_neg hy, if_pos rfl]
      exact .inl ⟨_, rfl⟩

/-- A number before a foreign character ends before it; it takes a digit, and a separator unless it starts there. -/
theorem readNumber_foreign (k : Conversion) {x : Char} (hx : Foreign x) (u v : List Char) :
    (∃ e, k.readNumber (u ++ x :: v) = .error e) ∨ ∃ n u', k.readNumber (u ++ x :: v) = .ok (n, u' ++ x :: v) ∧
      lead u' = 0 ∧ u'.length + 2 ≤ u.length + lead u := by
  induction u with
  | nil =>
    rw [List.nil_append, readNumber_unsigned k hx.solid hx.noMinus hx.noPlus]
    refine (readDigits_foreign k false hx [] v).imp_right ?_
    rintro ⟨n, u', -, -, hlen, -⟩
    exact absurd hlen (Nat.not_succ_le_zero _)
  | cons y u ih =>
    have hsign : ∀ negative, lead (y :: u) = 0 → k.readNumber (y :: u ++ x :: v) = k.readDigits negative (u ++ x :: v) →
        (∃ e, k.readNumber (y :: u ++ x :: v) = .error e) ∨ ∃ n u', k.readNumber (y :: u ++ x :: v) =
          .ok (n, u' ++ x :: v) ∧ lead u' = 0 ∧ u'.length + 2 ≤ (y :: u).length + lead (y :: u) := by
      intro negative hy he
      rw [he, hy]
      refine (readDigits_foreign k negative hx u v).imp_right ?_
      rintro ⟨n, u', he, hlead, hlen, -⟩
      exact ⟨n, u', he, hlead, Nat.succ_le_succ hlen⟩
    by_cases hy : isspace y = true
    · have hskip : k.readNumber (y :: u ++ x :: v) = k.readNumber (u ++ x :: v) := by
        unfold Conversion.readNumber
        rw [List.cons_append, show dropWhite (y :: (u ++ x :: v)) = dropWhite (u ++ x :: v) from
          List.dropWhile_cons_of_pos hy]
      rw [hskip]
      refine ih.imp_right ?_
      rintro ⟨n, u', he, hlead, hlen⟩
      have hle := lead_le u
      exact ⟨n, u', he, hlead, by rw [List.length_cons]; omega⟩
    · rw [Bool.not_eq_true] at hy
      by_cases hm : y = '-'
      · subst hm
        exact hsign true rfl rfl
      by_cases hp : y = '+'
      · subst hp
        exact hsign false rfl rfl
      rw [List.cons_append, readNumber_unsigned k hy hm hp, ← List.cons_append]
      refine (readDigits_foreign k false hx (y :: u) v).imp_right ?_
      rintro ⟨n, u', he, hlead, hlen, hone⟩
      exact ⟨n, u', he, hlead, by rw [hone]; exact Nat.succ_le_succ hlen⟩

/-- **Numeric conversions that need more than the characters before a foreign one store nothing.** -/
theorem scanf_numbers {ks : List Conversion} (hk : ∀ k ∈ ks, k.numeric = true) {x : Char} (hx : Foreign x)
    {u : List Char} (hlen : u.length + lead u < 2 * ks.length) (v : List Char) (format : List Directive) :
    (scanf (blanked (ks.map .skip) ++ format) (u ++ x :: v)).1 = [] := by
  induction ks generalizing u with
  | nil => exact absurd hlen (Nat.not_lt_zero _)
  | cons k ks ih =>
    rw [List.forall_mem_cons] at hk
    show (scanf (.white :: .skip k :: (blanked (ks.map .skip) ++ format)) (u ++ x :: v)).1 = []
    have hread : k.read (dropWhite (u ++ x :: v)) = k.readNumber (u ++ x :: v) := by
      rw [Conversion.read_numeric hk.1]
      unfold Conversion.readNumber
      rw [show dropWhite (dropWhite (u ++ x :: v)) = dropWhite (u ++ x :: v) from List.dropWhile_idempotent _ _]
    rw [scanf, scanf, hread]
    rcases readNumber_foreign k hx u v with ⟨e, he⟩ | ⟨n, u', he, hlead, hstep⟩
    · rw [he]
    · rw [he]
      rw [List.length_cons] at hlen
      exact ih hk.2 (by omega)

end Hmon.Lib
