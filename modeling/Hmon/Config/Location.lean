import Hmon.Config.Create
import Hmon.Lib.Strtok
import Hmon.Restrict
import Mathlib.Data.List.NodupEquivFin
import Mathlib.Order.Monotone.Basic

/-!
# The object of an indexed location (`OBJ:=T:i`, and `location_parse` in `hwloc_utils.c`)

* `Levels` : the objects of hwloc by depth; `locationParse` : the object of a text `type:index`;
* `HasLocation` : a block whose location is the field `OBJ:=T:i`;
* `IndexedInside` : its monitor goes to the `i`-th of the objects that lie inside the object covering the allowed
  cpuset;
* `indexed_inside` : **it does, and this is the object of `location_parse` exactly when that object and all before it
  lie there**.
-/

namespace Hmon.Config
open Lib

/-! ## An index among those with a property -/

section Filter
variable {α : Type} {p : α → Bool} {l : List α} {a : α} {i : Nat}

/-- What is left moves to the front. -/
theorem exists_ge_of_getElem?_filter (h : (l.filter p)[i]? = some a) : ∃ k, i ≤ k ∧ l[k]? = some a := by
  obtain ⟨f, hf⟩ := List.sublist_iff_exists_orderEmbedding_getElem?_eq.mp (List.filter_sublist (p := p) (l := l))
  exact ⟨f i, f.strictMono.le_apply, (hf i).symm.trans h⟩

/-- It keeps its index exactly when nothing before it goes. -/
theorem getElem?_filter_iff (hnd : l.Nodup) (h : l[i]? = some a) :
    (l.filter p)[i]? = some a ↔ ∀ b ∈ l.take (i + 1), p b = true := by
  induction l generalizing i with
  | nil => cases h
  | cons x l ih =>
    obtain ⟨hx, hnd⟩ := List.nodup_cons.mp hnd
    rw [List.take_succ_cons, List.forall_mem_cons]
    by_cases hp : p x = true
    · rw [List.filter_cons_of_pos hp, and_iff_right hp]
      cases i with
      | zero => exact iff_of_true h fun b hb => absurd hb List.not_mem_nil
      | succ i => exact ih hnd h
    · rw [List.filter_cons_of_neg hp]
      refine iff_of_false (fun hf => ?_) fun hall => hp hall.1
      obtain ⟨k, hk, hka⟩ := exists_ge_of_getElem?_filter hf
      cases i with
      | zero =>
        cases h
        exact hx (List.mem_of_getElem? hka)
      | succ i =>
        have hia : l[i]? = some a := h
        have hlt : i < l.length := (List.getElem?_eq_some_iff.mp hia).1
        have : i = k := (List.getElem?_inj hlt hnd).mp (hia.trans hka.symm)
        omega

end Filter

/-! ## Locations -/

/-- What `hwloc_type_sscanf_as_depth` says of a name. -/
inductive TypeDepth
  | error
  | unknown
  | multiple
  | depth (d : Nat)

/-- The types and objects of hwloc. `level d` are the objects of the `unsigned` depth `d`. -/
structure Levels where
  typeDepth : Text → TypeDepth
  level : Nat → List Obj

/-- `obj->depth` as an `unsigned`. -/
def depthOf (o : Obj) : Nat := (o.depth % 2 ^ 32).toNat

/-- `hwloc_get_obj_by_depth` -/
def Levels.objByDepth (hw : Levels) (d i : Nat) : Option Obj := (hw.level d)[i]?

/-- `location_parse` -/
def locationParse (hw : Levels) (location : Text) : Option Obj :=
  match strtok (· == ':') location with
  | [] => none
  | name :: idx =>
    match hw.typeDepth name with
    | .depth d => hw.objByDepth d ((idx.head?.elim 0 atoiText) % 2 ^ 32).toNat
    | _ => none

/-- The objects of a depth are numbered by their logical indices. -/
def Levels.Documented (hw : Levels) : Prop :=
  ∀ {d i o}, hw.objByDepth d i = some o → o.logicalIndex = i ∧ depthOf o = d

/-- The `inside_cpuset_by_depth` functions go through the objects of the depth that lie in the set. -/
def ImportEnv.Documented {M : Type} (env : ImportEnv M) (hw : Levels) : Prop :=
  ∀ set d, env.inside set d = (hw.level d).filter fun o => o.cpuset ≠ ∅ ∧ o.cpuset ⊆ set

/-- The depth that the action of a field `OBJ:=` takes. -/
def fieldDepth (hw : Levels) (name : Text) : Option Nat := (locationParse hw name).map depthOf

/-- The location of the block is that of a field `OBJ:=T:i`. -/
def HasLocation (hw : Levels) (b : Block) (type index : Text) : Prop :=
  ∃ f f' rest, field (fieldDepth hw) f
      (.objField :: .name type :: .char ':' :: .integer index :: .char ';' :: rest) = some (f', rest) ∧
    b.fields.locationDepth = f'.locationDepth ∧ b.fields.locationIndex = f'.locationIndex

/-- `hwloc_get_obj_inside_cpuset_by_depth` for the cpuset of an object and the location of a block. -/
def ImportEnv.indexed {M : Type} (env : ImportEnv M) (root : Obj) (b : Block) : Option Obj :=
  (env.inside root.cpuset b.fields.locationDepth)[b.fields.locationIndex.toNat]?

/-- The monitor of a block goes to the indexed object inside the covering object and is registered nowhere else. -/
structure IndexedInside {M : Type} (hw : Levels) (env : ImportEnv M) (allowed : Cpuset) (root : Obj) (b : Block)
    (type index : Text) (steps : List (CreateStep M)) : Prop where
  depth : hw.typeDepth type = .depth b.fields.locationDepth
  tried : steps.filterMap CreateStep.newArgs = [b.newArgs (env.indexed root b)]
  registered : ∀ m display, .register m display 0 ∈ steps →
    ∃ o, env.indexed root b = some o ∧ .new (b.newArgs (some o)) (some m) ∈ steps ∧ o.cpuset ⊆ allowed
  agrees : ∀ o, locationParse hw (type ++ ':' :: index) = some o →
    (env.indexed root b = some o ↔
      ∀ o' ∈ (hw.level b.fields.locationDepth).take ((atoi index).toNat + 1), o'.cpuset ≠ ∅ ∧ o'.cpuset ⊆ root.cpuset)

section Proofs
variable {M : Type} {hw : Levels} {env : ImportEnv M} {allowed : Cpuset} {root : Obj} {b : Block} {type index : Text}

/-! ### The two readings of a text -/

theorem strtol_eq (n : Nat) :
    strtol false n = Int.ofNat (if n < 9223372036854775808 then n else 9223372036854775807) := by
  have hmin : min n (2 ^ 63 - 1) = if n < 9223372036854775808 then n else 9223372036854775807 := by
    split_ifs
    · omega
    · omega
  exact congrArg Int.ofNat hmin

theorem atoiText_digits (hne : index ≠ []) (hdigits : ∀ c ∈ index, c.isDigit = true) : atoiText index = atoi index := by
  have hvalue : digitsValue index = Nat.ofDigitChars 10 index 0 := rfl
  unfold atoiText atoi
  rw [atol_digits hne hdigits]
  split
  · next ds =>
    have hminus := hdigits '-' List.mem_cons_self
    cases hminus
  · rw [hvalue, strtol_eq]
    rfl

theorem digit_ne_colon (hdigits : ∀ c ∈ index, c.isDigit = true) : ∀ c ∈ index, (c == ':') = false := by
  intro c hc
  rw [beq_eq_false_iff_ne]
  rintro rfl
  cases hdigits _ hc

theorem beq_colon_false (hcolon : ':' ∉ type) : ∀ c ∈ type, (c == ':') = false := by
  intro c hc
  rw [beq_eq_false_iff_ne]
  rintro rfl
  exact hcolon hc

theorem strtok_type (hne : type ≠ []) (hcolon : ':' ∉ type) : strtok (· == ':') type = [type] :=
  strtok_last hne (beq_colon_false hcolon)

theorem strtok_location (hne : type ≠ []) (hcolon : ':' ∉ type) (hindex : index ≠ [])
    (hdigits : ∀ c ∈ index, c.isDigit = true) : strtok (· == ':') (type ++ ':' :: index) = [type, index] := by
  rw [strtok_word hne (beq_colon_false hcolon) (by decide), strtok_last hindex (digit_ne_colon hdigits)]

theorem locationParse_type (hne : type ≠ []) (hcolon : ':' ∉ type) {o : Obj} (h : locationParse hw type = some o) :
    ∃ d, hw.typeDepth type = .depth d ∧ hw.objByDepth d 0 = some o := by
  unfold locationParse at h
  rw [strtok_type hne hcolon] at h
  simp only at h
  cases hd : hw.typeDepth type with
  | depth d =>
    rw [hd] at h
    exact ⟨d, rfl, h⟩
  | error | unknown | multiple =>
    rw [hd] at h
    cases h

theorem locationParse_indexed (hne : type ≠ []) (hcolon : ':' ∉ type) (hindex : index ≠ [])
    (hdigits : ∀ c ∈ index, c.isDigit = true) (hpos : 0 ≤ atoi index) {d : Nat} (hd : hw.typeDepth type = .depth d) :
    locationParse hw (type ++ ':' :: index) = hw.objByDepth d (atoi index).toNat := by
  have hlt : atoi index < 2 ^ 32 := by
    rw [← atoiText_digits hindex hdigits]
    have := Int.bmod_lt (x := atol index) (m := 2 ^ 32) (by decide)
    unfold atoiText
    omega
  unfold locationParse
  rw [strtok_location hne hcolon hindex hdigits]
  simp only [hd, List.head?_cons, Option.elim_some, atoiText_digits hindex hdigits, Int.emod_eq_of_lt hpos hlt]

/-! ### The block -/

theorem HasLocation.locationIndex (hb : HasLocation hw b type index) : b.fields.locationIndex = atoi index := by
  obtain ⟨f, f', rest, hfield, -, hindex⟩ := hb
  obtain ⟨d, -, hf⟩ := Option.map_eq_some_iff.mp hfield
  rw [hindex, ← (Prod.mk.inj hf).1]

theorem HasLocation.locationDepth (hhw : hw.Documented) (hne : type ≠ []) (hcolon : ':' ∉ type)
    (hb : HasLocation hw b type index) : hw.typeDepth type = .depth b.fields.locationDepth := by
  obtain ⟨f, f', rest, hfield, hdepth, -⟩ := hb
  obtain ⟨d, hd, hf⟩ := Option.map_eq_some_iff.mp hfield
  obtain ⟨o, ho, hod⟩ := Option.map_eq_some_iff.mp hd
  obtain ⟨d', htype, hobj⟩ := locationParse_type hne hcolon ho
  have hdd : d' = d := (hhw hobj).2.symm.trans hod
  rw [htype, hdd, hdepth, ← (Prod.mk.inj hf).1]

/-- Objects with their logical indices are distinct. -/
theorem Levels.Documented.nodup (hhw : hw.Documented) (d : Nat) : (hw.level d).Nodup := by
  rw [List.nodup_iff_getElem?_ne_getElem?]
  intro i j hij hj heq
  have hi : hw.objByDepth d i = some (hw.level d)[i] := List.getElem?_eq_getElem (hij.trans hj)
  have := (hhw hi).1.symm.trans (hhw (heq.symm.trans hi : hw.objByDepth d j = _)).1
  omega

/-- A registered monitor was built for the object. -/
theorem insertMonitor_registered {location : Option Obj} {m : M} {display : Int}
    (h : .register m display 0 ∈ insertMonitor env allowed b location) :
    ∃ o, location = some o ∧ .new (b.newArgs (some o)) (some m) ∈ insertMonitor env allowed b location ∧
      o.cpuset ⊆ allowed := by
  cases hn : env.new (b.newArgs location) with
  | none =>
    rw [insertMonitor_none hn] at h
    cases List.mem_singleton.mp h
  | some m' =>
    obtain ⟨o, rfl⟩ := new_location hn
    refine ⟨o, rfl, ?_⟩
    by_cases hin : o.cpuset ⊆ allowed
    · rw [insertMonitor_inside hn hin] at h ⊢
      simp only [List.mem_cons, CreateStep.register.injEq, reduceCtorEq, List.not_mem_nil, or_false, false_or] at h
      obtain ⟨rfl, -⟩ := h
      exact ⟨List.mem_cons_self, hin⟩
    · rw [insertMonitor_outside hn hin] at h
      simp only [List.mem_cons, CreateStep.register.injEq, reduceCtorEq, List.not_mem_nil, or_false, false_or] at h
      obtain ⟨-, -, h⟩ := h
      cases h

/-- **The monitor of `OBJ:=T:i` goes to the `i`-th object of the type inside the object that covers the allowed cpuset;
this is the object of `location_parse` exactly when it and the objects before it lie there.** -/
theorem indexed_inside (hhw : hw.Documented) (henv : env.Documented hw) (hroot : env.covering allowed = some root)
    (hne : type ≠ []) (hcolon : ':' ∉ type) (hindex : index ≠ []) (hdigits : ∀ c ∈ index, c.isDigit = true)
    (hpos : 0 ≤ atoi index) (hb : HasLocation hw b type index) (hevents : b.fields.events ≠ []) :
    ∃ steps, monitorSteps env allowed b (env.covering allowed) = .ok steps ∧
      IndexedInside hw env allowed root b type index steps := by
  have hlength : b.fields.events.length ≠ 0 := fun h => hevents (List.length_eq_zero_iff.mp h)
  have hi := hb.locationIndex
  have hd := hb.locationDepth hhw hne hcolon
  refine ⟨insertMonitor env allowed b (env.indexed root b), ?_, hd, insertMonitor_newArgs _,
    fun m display h => insertMonitor_registered h, fun o ho => ?_⟩
  · unfold monitorSteps
    rw [if_neg hlength, hroot]
    exact if_pos (hi ▸ hpos)
  · rw [locationParse_indexed hne hcolon hindex hdigits hpos hd] at ho
    unfold ImportEnv.indexed
    rw [henv, hi, getElem?_filter_iff (hhw.nodup _) ho]
    simp only [decide_eq_true_eq]

end Proofs

/-! ## Two cores, of which the second is allowed -/

mutual
/-- The lowest object of a subtree whose cpuset contains the set, if that of its root does. -/
def coveringIn (set : Cpuset) : Topo → Obj
  | .node o _ cs => (coveringAll set cs).getD o
def coveringAll (set : Cpuset) : List Topo → Option Obj
  | [] => none
  | t :: ts => if set ⊆ t.obj.cpuset then some (coveringIn set t) else coveringAll set ts
end

/-- `hwloc_get_obj_covering_cpuset` -/
def objCoveringCpuset (topo : Topo) (set : Cpuset) : Option Obj :=
  if set ≠ ∅ ∧ set ⊆ topo.obj.cpuset then some (coveringIn set topo) else none

def twoCoresLevels : Levels where
  typeDepth name := if name = "Core".toList then .depth 1 else if name = "PU".toList then .depth 2 else .unknown
  level
    | 0 => [Topo.machine]
    | 1 => [Topo.coreObj 0, Topo.coreObj 1]
    | 2 => [Topo.puObj 0, Topo.puObj 1]
    | _ => []

theorem twoCoresLevels_documented : twoCoresLevels.Documented := by
  intro d i o h
  match d, i, h with
  | 0, 0, h => cases h; exact ⟨rfl, rfl⟩
  | 1, 0, h => cases h; exact ⟨rfl, rfl⟩
  | 1, 1, h => cases h; exact ⟨rfl, rfl⟩
  | 2, 0, h => cases h; exact ⟨rfl, rfl⟩
  | 2, 1, h => cases h; exact ⟨rfl, rfl⟩

def twoCoresEnv : ImportEnv ℕ where
  covering := objCoveringCpuset Topo.twoCores
  inside set d := (twoCoresLevels.level d).filter fun o => o.cpuset ≠ ∅ ∧ o.cpuset ⊆ set
  newHmonitor _ := some 0

/-- A block with `OBJ:=Core:index` and one event. -/
def coreBlock (index : Int) : Block :=
  ⟨"m".toList, { Fields.reset with
    events := ["e".toList], perfPluginName := some "fake".toList, locationDepth := 1, locationIndex := index }⟩

/-- `OBJ:=Core:0` is the second core. -/
theorem indexed_inside_second : ∃ steps,
    monitorSteps twoCoresEnv {1} (coreBlock 0) (twoCoresEnv.covering {1}) = .ok steps ∧
      IndexedInside twoCoresLevels twoCoresEnv {1} (Topo.puObj 1) (coreBlock 0) "Core".toList "0".toList steps :=
  indexed_inside twoCoresLevels_documented (fun _ _ => rfl) rfl (by decide) (by decide) (by decide) (by decide)
    (by decide) ⟨.reset, { Fields.reset with locationDepth := 1, locationIndex := 0 }, [], by decide, rfl, rfl⟩
    (by decide)

/-- After a restriction to the second core `location_parse` finds it for `Core:1` and `OBJ:=Core:1` has no object. -/
theorem second_core_missed : ∃ L : Registry ℚ ℕ, regSys.Reach Empty Lts.always L ∧
    HasLocation twoCoresLevels (coreBlock 1) "Core".toList "1".toList ∧
    locationParse twoCoresLevels "Core:1".toList = some (Topo.coreObj 1) ∧ (Topo.coreObj 1).cpuset ⊆ L.allowed ∧
    monitorSteps twoCoresEnv L.allowed (coreBlock 1) (twoCoresEnv.covering L.allowed) =
      .ok [.new ((coreBlock 1).newArgs none) none] := by
  have hr : regSys.Reach Empty Lts.always { restrictDemo with allowed := {1} } := .of_exec (.init ⟨_, _, rfl⟩)
    (show regSys.exec restrictDemo [.restrict {1}] = some _ from rfl)
  have hb : HasLocation twoCoresLevels (coreBlock 1) "Core".toList "1".toList :=
    ⟨.reset, { Fields.reset with locationDepth := 1, locationIndex := 1 }, [], by decide, rfl, rfl⟩
  exact ⟨_, hr, hb, by decide, by decide, rfl⟩

end Hmon.Config
