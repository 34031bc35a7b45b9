import Hmon.Config.Location
import Hmon.Lib.CString
import Hmon.Trace

/-!
# Names of locations (`location_name` and `location_parse` in `hwloc_utils.c`)

* `locationName` : the buffer that `location_name` fills;
* `TypeName` : what is known of the names of hwloc's types;
* `locationName_text` : the buffer holds the whole name; `locationParse_text` : what a name is parsed to;
* `location_roundtrip` : **a name is parsed to its object exactly when hwloc gives the name of the type one depth**, for
  every index.
-/

namespace Hmon.Config
open Lib

/-- `location_name`: 64 zeros, of which `snprintf` may write 63. -/
def locationName (typeName : ObjType → Text) (o : Obj) : Option Text :=
  (storeAt (zeroed 64 []) 0 (snprintf 63 (locationText typeName o))).map cstring

/-- A name of a type is one word, short and without a colon. -/
structure TypeName (name : Text) : Prop where
  nonempty : name ≠ []
  colon : ':' ∉ name
  zero : '\x00' ∉ name
  short : name.length ≤ 51

section
variable {typeName : ObjType → Text} {o : Obj}

theorem length_decimal {n : Nat} (h : n < 2 ^ 32) : (Lib.decimal n).length ≤ 10 :=
  (Nat.length_toDigits_le_iff (by decide) (by decide)).mpr (Nat.lt_of_lt_of_le h (by decide))

theorem zero_not_mem_decimal (n : Nat) : '\x00' ∉ Lib.decimal n := fun h => absurd (digit_toDigits n _ h) (by decide)

/-- The buffer holds the whole name, whatever the index is. -/
theorem locationName_text (h : TypeName (typeName o.type)) (hindex : o.logicalIndex < 2 ^ 32) :
    locationName typeName o = some (locationText typeName o) := by
  have hlen : (locationText typeName o).length ≤ 62 := by
    have := h.short
    have := length_decimal hindex
    unfold locationText
    rw [List.length_append, List.length_cons]
    omega
  have hzero : '\x00' ∉ locationText typeName o := by
    refine List.not_mem_append h.zero fun hmem => ?_
    rcases List.mem_cons.mp hmem with hc | hd
    · exact absurd hc (by decide)
    · exact zero_not_mem_decimal _ hd
  have hsame : snprintf 63 (locationText typeName o) = snprintf (64 - ([] : Text).length) (locationText typeName o) := by
    unfold snprintf
    rw [if_neg (by decide), if_neg (by decide), List.take_of_length_le hlen,
      List.take_of_length_le (hlen.trans (by decide))]
  have hfits : ([] ++ locationText typeName o).length < 64 := by
    rw [List.nil_append]
    omega
  have hstore : storeAt (zeroed 64 []) 0 (snprintf 63 (locationText typeName o)) =
      some (zeroed 64 (locationText typeName o)) := hsame ▸ zeroed_append hfits
  unfold locationName
  rw [hstore, Option.map_some, cstring_zeroed hzero]

/-- An index is read back as the `unsigned` that it is, though `atoi` makes it an `int`. -/
theorem atoiText_decimal {n : Nat} (h : n < 2 ^ 32) : (atoiText (Lib.decimal n) % 2 ^ 32).toNat = n := by
  have hvalue : Nat.ofDigitChars 10 (Lib.decimal n) 0 = n := Nat.ofDigitChars_ten_toDigits
  have hatol : atol (Lib.decimal n) = Int.ofNat n := by
    rw [atol_digits (s := Lib.decimal n) Nat.toDigits_ne_nil (digit_toDigits n), hvalue, strtol_eq, if_pos (by omega)]
  unfold atoiText
  have hmod : (Int.ofNat n).bmod (2 ^ 32) % 2 ^ 32 = Int.ofNat n := by
    have hcast : ((2 ^ 32 : Nat) : Int) = 2 ^ 32 := by norm_num
    have hn : Int.ofNat n < ((2 ^ 32 : Nat) : Int) := Int.ofNat_lt.mpr h
    rw [← hcast, Int.bmod_emod]
    exact Int.emod_eq_of_lt (Int.natCast_nonneg n) hn
  rw [hatol, hmod]
  rfl

variable {hw : Levels} {d : Nat}

/-- What a name is parsed to. -/
theorem locationParse_text (h : TypeName (typeName o.type)) (hindex : o.logicalIndex < 2 ^ 32) :
    locationParse hw (locationText typeName o) =
      match hw.typeDepth (typeName o.type) with
      | .depth d => hw.objByDepth d o.logicalIndex
      | _ => none := by
  unfold locationParse locationText
  have hwords : strtok (· == ':') (typeName o.type ++ ':' :: Lib.decimal o.logicalIndex) =
      [typeName o.type, Lib.decimal o.logicalIndex] :=
    strtok_location h.nonempty h.colon Nat.toDigits_ne_nil (digit_toDigits _)
  rw [hwords]
  cases htype : hw.typeDepth (typeName o.type) <;>
    simp only [htype, List.head?_cons, Option.elim_some, atoiText_decimal hindex]

/-- **The name of an object is parsed to the object exactly when hwloc gives the name of its type one depth**, that of the
object; then no other object has its name. -/
theorem location_roundtrip (hhw : hw.Documented) (ho : hw.objByDepth d o.logicalIndex = some o)
    (h : TypeName (typeName o.type)) (hindex : o.logicalIndex < 2 ^ 32) :
    ((locationName typeName o).bind (locationParse hw) = some o ↔ hw.typeDepth (typeName o.type) = .depth d) ∧
      (hw.typeDepth (typeName o.type) = .depth d → ∀ {d' o'}, hw.objByDepth d' o'.logicalIndex = some o' →
        hw.typeDepth (typeName o'.type) = .depth d' → TypeName (typeName o'.type) → o'.logicalIndex < 2 ^ 32 →
        locationName typeName o' = locationName typeName o → o' = o) := by
  have hread {d o} (h : TypeName (typeName o.type)) (hindex : o.logicalIndex < 2 ^ 32)
      (ho : hw.objByDepth d o.logicalIndex = some o) (hd : hw.typeDepth (typeName o.type) = .depth d) :
      (locationName typeName o).bind (locationParse hw) = some o := by
    rw [locationName_text h hindex, Option.bind_some, locationParse_text h hindex, hd]
    exact ho
  refine ⟨⟨fun hparse => ?_, hread h hindex ho⟩, fun hd {d' o'} ho' hd' h' hindex' hname => ?_⟩
  · rw [locationName_text h hindex, Option.bind_some, locationParse_text h hindex] at hparse
    cases hd : hw.typeDepth (typeName o.type) with
    | depth d' =>
      rw [hd] at hparse
      rw [← (hhw hparse).2, (hhw ho).2]
    | error | unknown | multiple =>
      rw [hd] at hparse
      cases hparse
  · have h₁ := hread h hindex ho hd
    have h₂ := hread h' hindex' ho' hd'
    rw [hname, h₁] at h₂
    exact (Option.some.inj h₂).symm

end

/-! ## The second of two cores -/

/-- The names of the types of the two cores. -/
def twoCoresName : ObjType → Text
  | .core => "Core".toList
  | .pu => "PU".toList
  | .numaNode => "NUMANode".toList
  | .other _ => "Machine".toList

/-- `Core:1` is the name of the second core and of nothing else. -/
theorem location_roundtrip_second :
    ((locationName twoCoresName (Topo.coreObj 1)).bind (locationParse twoCoresLevels) = some (Topo.coreObj 1) ↔
      twoCoresLevels.typeDepth "Core".toList = .depth 1) ∧
      (twoCoresLevels.typeDepth "Core".toList = .depth 1 → ∀ {d' o'},
        twoCoresLevels.objByDepth d' o'.logicalIndex = some o' →
        twoCoresLevels.typeDepth (twoCoresName o'.type) = .depth d' → TypeName (twoCoresName o'.type) →
        o'.logicalIndex < 2 ^ 32 → locationName twoCoresName o' = locationName twoCoresName (Topo.coreObj 1) →
        o' = Topo.coreObj 1) :=
  location_roundtrip twoCoresLevels_documented rfl (TypeName.mk (by decide) (by decide) (by decide) (by decide) :
    TypeName (twoCoresName (Topo.coreObj 1).type)) (by decide)

end Hmon.Config
