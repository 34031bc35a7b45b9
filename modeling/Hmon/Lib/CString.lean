import Hmon.Lib.Printf

/-!
# Strings in a buffer

* `cstring`, `strlen` : the characters of a buffer before the first `'\0'`;
* `storeAt`, `memset` : the buffer with bytes stored at an offset, none for a store outside of it;
* `zeroed` : a buffer with a string and zeros behind it;
* `zeroed_append`, `zeroed_cut` : **text can be put behind the string and be cleared again**.
-/

namespace Hmon.Lib

/-- The string that a buffer holds. -/
def cstring (buf : List Char) : List Char := buf.takeWhile fun c => c ≠ '\x00'

def strlen (buf : List Char) : Nat := (cstring buf).length

/-- Bytes stored from an offset on. -/
def storeAt (buf : List Char) (offset : Nat) (bytes : List Char) : Option (List Char) :=
  if offset + bytes.length ≤ buf.length then some (buf.take offset ++ bytes ++ buf.drop (offset + bytes.length))
  else none

/-- `memset(buf + offset, 0, n)` -/
def memset (buf : List Char) (offset n : Nat) : Option (List Char) := storeAt buf offset (List.replicate n '\x00')

/-- A buffer of `size` bytes with a string and zeros. -/
def zeroed (size : Nat) (s : List Char) : List Char := s ++ List.replicate (size - s.length) '\x00'

variable {size : Nat} {s t : List Char}

theorem cstring_zeroed (hs : '\x00' ∉ s) : cstring (zeroed size s) = s := by
  have hkeep : ∀ c ∈ s, decide (c ≠ '\x00') = true := fun c hc => decide_eq_true fun h => hs (h ▸ hc)
  unfold cstring zeroed
  rw [List.takeWhile_append_of_pos hkeep, List.takeWhile_replicate, if_neg (by decide), List.append_nil]

theorem strlen_zeroed (hs : '\x00' ∉ s) : strlen (zeroed size s) = s.length := by
  unfold strlen
  rw [cstring_zeroed hs]

/-- Bytes stored right behind a string. -/
theorem storeAt_append {s u bytes : List Char} (h : bytes.length ≤ u.length) :
    storeAt (s ++ u) s.length bytes = some (s ++ bytes ++ u.drop bytes.length) := by
  unfold storeAt
  rw [List.length_append, if_pos (Nat.add_le_add_left h _), List.take_left, List.drop_append,
    List.drop_of_length_le (Nat.le_add_right _ _), List.nil_append, Nat.add_sub_cancel_left]

/-- What `snprintf` prints behind the string, when there is room. -/
theorem zeroed_append (h : (s ++ t).length < size) :
    storeAt (zeroed size s) s.length (snprintf (size - s.length) t) = some (zeroed size (s ++ t)) := by
  rw [List.length_append] at h
  have hbytes : snprintf (size - s.length) t = t ++ ['\x00'] := by
    unfold snprintf
    rw [if_neg (by omega), List.take_of_length_le (by omega)]
  have hzero : ['\x00'] ++ List.replicate (size - s.length - (t.length + 1)) '\x00' =
      List.replicate (size - (s ++ t).length) '\x00' := by
    rw [List.singleton_append, ← List.replicate_succ, List.length_append]
    congr 1
    omega
  unfold zeroed
  rw [hbytes, storeAt_append (by simp only [List.length_append, List.length_singleton, List.length_replicate]; omega),
    List.drop_replicate, List.length_append, List.length_singleton, ← hzero]
  simp only [List.append_assoc]

/-- Text behind the string is cleared again. -/
theorem zeroed_cut (h : (s ++ t).length ≤ size) :
    memset (zeroed size (s ++ t)) s.length t.length = some (zeroed size s) := by
  rw [List.length_append] at h
  have hzero : List.replicate t.length '\x00' ++ List.replicate (size - (s ++ t).length) '\x00' =
      List.replicate (size - s.length) '\x00' := by
    rw [List.replicate_append_replicate, List.length_append]
    congr 1
    omega
  unfold memset zeroed
  rw [List.append_assoc, storeAt_append (by simp only [List.length_append, List.length_replicate]; omega),
    List.length_replicate, List.drop_left, List.append_assoc, hzero]

end Hmon.Lib
