import Hmon.Lib.Scanf

/-!
# `fscanf` with literal text, on a stream

* `Item`, `fscanf` : a format with characters to be matched; what a call leaves in the stream is read by the next one;
* `fscanf_literal`, `fscanf_white`, `fscanf_store`, `fscanf_skip` : **the directives in turn, on text that matches**.
-/

namespace Hmon.Lib

/-- A directive, or a character that the input has to go on with. -/
inductive Item
  | text (c : Char)
  | directive (d : Directive)

/-- What a conversion that fails leaves in the stream: it has taken white space and a sign. -/
def Conversion.left (k : Conversion) (s : List Char) : List Char :=
  match k.numeric, dropWhite s with
  | true, '-' :: t => t
  | true, '+' :: t => t
  | _, t => t

/-- The values that a call stores, why it ended early, and what is left in the stream. -/
structure Scanned where
  values : List Value
  failure : Option Failure
  rest : List Char
  deriving DecidableEq

def fscanf : List Item → List Char → Scanned
  | [], s => ⟨[], none, s⟩
  | .text _ :: _, [] => ⟨[], some .input, []⟩
  | .text c :: format, x :: s => if x = c then fscanf format s else ⟨[], some .matching, x :: s⟩
  | .directive .white :: format, s => fscanf format (dropWhite s)
  | .directive (.store k) :: format, s =>
    match k.read s with
    | .error e => ⟨[], some e, k.left s⟩
    | .ok (v, s) =>
      let r := fscanf format s
      { r with values := v :: r.values }
  | .directive (.skip k) :: format, s =>
    match k.read s with
    | .error e => ⟨[], some e, k.left s⟩
    | .ok (_, s) => fscanf format s

/-- The number of stored values, or `EOF`. -/
def Scanned.result (r : Scanned) : Int := scanfResult (r.values, r.failure)

/-- The characters of a literal. -/
def literal (s : String) : List Item := s.toList.map .text

def white : Item := .directive .white

variable {k : Conversion} {w : List Char} {v : Value}

theorem fscanf_literal (t : String) (format : List Item) (s : List Char) :
    fscanf (literal t ++ format) (t.toList ++ s) = fscanf format s := by
  unfold literal
  induction t.toList with
  | nil => rfl
  | cons c cs ih => exact (if_pos rfl).trans ih

theorem dropWhite_white {pad : List Char} (hpad : ∀ c ∈ pad, isspace c = true) (s : List Char) :
    dropWhite (pad ++ s) = dropWhite s := by
  unfold dropWhite
  exact List.dropWhile_append_of_pos hpad

/-- White space before a word. -/
theorem dropWhite_reads (h : Reads k w v) (s : List Char) : dropWhite (w ++ s) = w ++ s := by
  obtain ⟨x, t, rfl, hx⟩ := h.solid
  exact dropWhite_solid hx _

theorem fscanf_white {pad : List Char} (hpad : ∀ c ∈ pad, isspace c = true) (format : List Item) (s : List Char) :
    fscanf (white :: format) (pad ++ s) = fscanf format (dropWhite s) := by
  rw [white, fscanf, dropWhite_white hpad]

theorem fscanf_store (h : Reads k w v) (format : List Item) {s : List Char} (hs : Blank s) :
    fscanf (.directive (.store k) :: format) (w ++ s) =
      { fscanf format s with values := v :: (fscanf format s).values } := by
  rw [fscanf, h.read s hs]

theorem fscanf_skip (h : Reads k w v) (format : List Item) {s : List Char} (hs : Blank s) :
    fscanf (.directive (.skip k) :: format) (w ++ s) = fscanf format s := by
  rw [fscanf, h.read s hs]

end Hmon.Lib
