import Hmon.Lib.Scanf

/-!
# `strtok` and `atol`

* `strtok` : the tokens that successive calls return for one set of delimiters;
* `strtok_word`, `strtok_last`, `strtok_delimiter` : **words with delimiters between them are the tokens**;
* `not_delimiter_of_mem_strtok` : no token has a delimiter;
* `atol`, `atoiText` : the number that a text begins with.
-/

namespace Hmon.Lib

variable {p : Char → Bool}

/-- The longest non-empty parts without a delimiter. -/
def strtok (p : Char → Bool) (s : List Char) : List (List Char) := (s.splitOnP p).filter fun w => !w.isEmpty

@[simp] theorem strtok_nil : strtok p [] = [] := by
  unfold strtok
  rw [List.splitOnP_nil]
  rfl

theorem strtok_delimiter {c : Char} (hc : p c = true) (s : List Char) : strtok p (c :: s) = strtok p s := by
  have hnil : ∀ x ∈ ([] : List Char), p x = false := fun x hx => absurd hx List.not_mem_nil
  have h := List.splitOnP_append_cons_of_forall_mem hnil c hc s
  unfold strtok
  rw [List.nil_append] at h
  rw [h, List.filter_cons_of_neg (by simp)]

theorem strtok_delimiters {w : List Char} (hw : ∀ c ∈ w, p c = true) (s : List Char) :
    strtok p (w ++ s) = strtok p s := by
  induction w with
  | nil => rfl
  | cons c w ih =>
    rw [List.cons_append, strtok_delimiter (hw c List.mem_cons_self)]
    exact ih fun c hc => hw c (List.mem_cons_of_mem _ hc)

theorem strtok_word {w : List Char} {c : Char} (hne : w ≠ []) (hw : ∀ c ∈ w, p c = false) (hc : p c = true)
    (s : List Char) : strtok p (w ++ c :: s) = w :: strtok p s := by
  unfold strtok
  rw [List.splitOnP_append_cons_of_forall_mem hw c hc, List.filter_cons_of_pos (by simpa using hne)]

theorem strtok_last {w : List Char} (hne : w ≠ []) (hw : ∀ c ∈ w, p c = false) : strtok p w = [w] := by
  unfold strtok
  rw [List.splitOnP_eq_singleton hw, List.filter_cons_of_pos (by simpa using hne), List.filter_nil]

/-- No token has a delimiter. -/
theorem not_delimiter_of_mem_strtok {s w : List Char} (hw : w ∈ strtok p s) : ∀ c ∈ w, p c = false := by
  have split : ∀ s : List Char, ∀ w ∈ s.splitOnP p, ∀ c ∈ w, p c = false := by
    intro s
    induction s with
    | nil =>
      intro w hw c hc
      rw [List.splitOnP_nil, List.mem_singleton] at hw
      exact absurd (hw ▸ hc) List.not_mem_nil
    | cons x s ih =>
      intro w hw c hc
      rw [List.splitOnP_cons_eq_if_modifyHead] at hw
      split_ifs at hw with hx
      · rcases List.mem_cons.mp hw with rfl | hw
        · exact absurd hc List.not_mem_nil
        · exact ih w hw c hc
      · obtain ⟨v, vs, hv⟩ := List.exists_cons_of_ne_nil (List.splitOnP_ne_nil p s)
        rw [hv, List.modifyHead_cons] at hw
        rw [hv] at ih
        rcases List.mem_cons.mp hw with rfl | hw
        · rcases List.mem_cons.mp hc with rfl | hc
          · exact Bool.eq_false_iff.mpr hx
          · exact ih v List.mem_cons_self c hc
        · exact ih w (List.mem_cons_of_mem v hw) c hc
  exact split s w (List.mem_filter.mp hw).1

/-! ## Numbers -/

/-- `atol`: 0 for a text that begins with no number. -/
def atol (s : List Char) : Int :=
  match Conversion.ld.readNumber s with
  | .ok (.num n, _) => n
  | _ => 0

/-- `atoi`: the number of `atol`, cut to an `int`. -/
def atoiText (s : List Char) : Int := (atol s).bmod (2 ^ 32)

/-- Of digits `atol` returns the value, or the largest `long`. -/
theorem atol_digits {s : List Char} (hne : s ≠ []) (hs : ∀ c ∈ s, c.isDigit = true) :
    atol s = strtol false (Nat.ofDigitChars 10 s 0) := by
  obtain ⟨x, t, rfl⟩ := List.exists_cons_of_ne_nil hne
  have hx : x.isDigit = true := hs x List.mem_cons_self
  have htake : (x :: t).takeWhile Char.isDigit = x :: t := List.takeWhile_eq_self_iff.mpr hs
  unfold atol
  rw [readNumber_unsigned .ld (isspace_digit hx) (by rintro rfl; cases hx) (by rintro rfl; cases hx)]
  unfold Conversion.readDigits
  simp only [htake]
  rw [if_neg (List.cons_ne_nil x t)]
  rfl

end Hmon.Lib
