import Hmon.Config.Parser
import Hmon.Hwloc

/-!
# Which function a monitor gets for its reduction (`plugin.c`, `monitor_create`)

* `Function` : a function of a loaded library, known by its file; `StatPlugin` : a loaded statistic plugin;
* `lookupFunction`, `statPluginBuild` : the registry of plugins, in the order of loading;
* `monitorCreate` : the plugins and the monitors after one block of a configuration;
* `Built` : the registry after any blocks;
* `own_reduction_iff` : **every monitor runs the reduction of its own block exactly when no plugin loaded at the start
  has or exports the block's id and the first block of that id has the same reduction**.
-/

namespace Hmon.Config

/-- A function of a library: a symbol of a plugin loaded at the start, or the one of a generated file. -/
inductive Function
  | native (plugin symbol : Text)
  | generated (source : Text)
  deriving DecidableEq, Repr

/-- A loaded statistic plugin; `symbol` is `dlsym` on it. -/
structure StatPlugin where
  id : Text
  symbol : Text → Option Function

/-- A plugin of `HMON_STAT_PLUGINS` or `STAT_PLUGINS`. -/
structure Native where
  id : Text
  exports : List Text

def Native.plugin (p : Native) : StatPlugin where
  id := p.id
  symbol name := if name ∈ p.exports then some (.native p.id name) else none

/-- The library compiled from `source`: it exports the function `name` of the file. -/
def built (name source : Text) : StatPlugin where
  id := name
  symbol n := if n = name then some (.generated source) else none

/-- `hmon_plugin_lookup` -/
def pluginLookup (ps : List StatPlugin) (name : Text) : Option StatPlugin := ps.find? fun p => p.id = name

/-- `hmon_stat_plugins_lookup_function` -/
def lookupFunction (ps : List StatPlugin) (name : Text) : Option Function := ps.findSome? fun p => p.symbol name

/-- `hmon_stat_plugin_build`. A plugin of that name is not built again. -/
def statPluginBuild (ps : List StatPlugin) (name source : Text) : List StatPlugin :=
  match pluginLookup ps name with
  | some _ => ps
  | none => ps ++ [built name source]

structure Created where
  location : Obj
  model : Option Function

section Create
variable (locations : Block → List Obj)

/-- `monitor_create`; `locations` are the objects for which `new_hmonitor` returns a monitor of the block. -/
def monitorCreate (ps : List StatPlugin) (b : Block) : List StatPlugin × List Created :=
  let ps := match b.fields.reductionCode with
    | some code => statPluginBuild ps b.id (functionSource b.id code)
    | none => ps
  let modelPlugin := if b.fields.reductionCode.isSome then some b.id else b.fields.reductionPluginName
  if b.fields.events = [] then (ps, [])
  else (ps, (locations b).map fun obj => ⟨obj, modelPlugin.bind (lookupFunction ps)⟩)

/-- The plugins after the blocks `bs`. -/
def createAll (ps : List StatPlugin) (bs : List Block) : List StatPlugin :=
  bs.foldl (fun ps b => (monitorCreate locations ps b).1) ps

/-- Each monitor of a block with an arithmetic reduction has the function generated from it. -/
def OwnReduction (init : List Native) (bs : List Block) : Prop :=
  ∀ pre b post code, bs = pre ++ b :: post → b.fields.reductionCode = some code →
    ∀ m ∈ (monitorCreate locations (createAll locations (init.map Native.plugin) pre) b).2,
      m.model = some (.generated (functionSource b.id code))

/-- The reduction of the first block of an id that has one. -/
def firstCode (bs : List Block) (id : Text) : Option Text :=
  bs.findSome? fun b => if b.id = id then b.fields.reductionCode else none

/-- The id is new and belongs to one reduction: for each block with a reduction that creates a monitor. -/
def IdsFit (init : List Native) (bs : List Block) : Prop :=
  ∀ pre b post code, bs = pre ++ b :: post → b.fields.reductionCode = some code →
    b.fields.events ≠ [] → locations b ≠ [] →
      (∀ p ∈ init, p.id ≠ b.id ∧ b.id ∉ p.exports) ∧ firstCode (pre ++ [b]) b.id = some code

/-! ## The registry after any blocks -/

/-- After the blocks `bs`, the first reduction of each new id is built, and nothing else. -/
def Built (init : List Native) (bs : List Block) (ps : List StatPlugin) : Prop :=
  ∃ fs : List (Text × Text), ps = init.map Native.plugin ++ fs.map (fun f => built f.1 f.2) ∧
    ∀ id, fs.lookup id = if ∀ p ∈ init, p.id ≠ id then (firstCode bs id).map (functionSource id) else none

end Create

/-! ## Lookups -/

theorem pluginLookup_append (ps qs : List StatPlugin) (name : Text) :
    pluginLookup (ps ++ qs) name = (pluginLookup ps name).or (pluginLookup qs name) := by
  unfold pluginLookup
  rw [List.find?_append]

theorem pluginLookup_native (init : List Native) (name : Text) :
    pluginLookup (init.map Native.plugin) name = none ↔ ∀ p ∈ init, p.id ≠ name := by
  unfold pluginLookup
  rw [List.find?_eq_none]
  simp [Native.plugin]

theorem pluginLookup_built (fs : List (Text × Text)) (name : Text) :
    pluginLookup (fs.map fun f => built f.1 f.2) name = (fs.lookup name).map (built name) := by
  induction fs with
  | nil => rfl
  | cons f fs ih =>
    obtain ⟨id, source⟩ := f
    unfold pluginLookup at ih ⊢
    rw [List.map_cons, List.find?_cons, List.lookup_cons]
    by_cases h : name = id
    · subst h
      simp [built]
    · have hne : (name == id) = false := beq_eq_false_iff_ne.mpr h
      have hid : decide ((built id source).id = name) = false := decide_eq_false fun he => h he.symm
      simp only [hid, hne, ih]

theorem lookupFunction_built (fs : List (Text × Text)) (name : Text) :
    lookupFunction (fs.map fun f => built f.1 f.2) name = (fs.lookup name).map .generated := by
  induction fs with
  | nil => rfl
  | cons f fs ih =>
    obtain ⟨id, source⟩ := f
    unfold lookupFunction at ih ⊢
    rw [List.map_cons, List.findSome?_cons, List.lookup_cons, ih]
    by_cases h : name = id
    · subst h
      simp [built]
    · simp [built, h, beq_eq_false_iff_ne.mpr h]

/-- The first plugin of the start that exports the name, or else the built one. -/
theorem lookupFunction_append (ps qs : List StatPlugin) (name : Text) :
    lookupFunction (ps ++ qs) name = (lookupFunction ps name).or (lookupFunction qs name) :=
  List.findSome?_append

theorem lookupFunction_native (init : List Native) (name : Text) :
    lookupFunction (init.map Native.plugin) name = none ↔ ∀ p ∈ init, name ∉ p.exports := by
  unfold lookupFunction
  rw [List.findSome?_eq_none_iff]
  simp [Native.plugin]

theorem lookupFunction_native_ne (init : List Native) (name source : Text) :
    lookupFunction (init.map Native.plugin) name ≠ some (.generated source) := by
  intro h
  obtain ⟨p, hp, hs⟩ := List.exists_of_findSome?_eq_some h
  obtain ⟨q, -, rfl⟩ := List.mem_map.mp hp
  simp only [Native.plugin] at hs
  split_ifs at hs
  cases hs

theorem functionSource_inj {id code code' : Text} (h : functionSource id code = functionSource id code') :
    code = code' := List.append_cancel_left h

/-! ## The registry after any blocks -/

theorem firstCode_append (bs : List Block) (b : Block) (id : Text) :
    firstCode (bs ++ [b]) id = (firstCode bs id).or (if b.id = id then b.fields.reductionCode else none) := by
  unfold firstCode
  rw [List.findSome?_append, List.findSome?_singleton]

theorem lookup_concat (fs : List (Text × Text)) (id source name : Text) :
    (fs ++ [(id, source)]).lookup name = (fs.lookup name).or (if name = id then some source else none) := by
  rw [List.lookup_append, List.lookup_cons]
  by_cases h : name = id
  · subst h
    simp
  · simp [h, beq_eq_false_iff_ne.mpr h]

/-- A block with a reduction: the build, then one lookup for each monitor. -/
theorem monitorCreate_of_code {locations : Block → List Obj} {ps : List StatPlugin} {b : Block} {code : Text}
    (h : b.fields.reductionCode = some code) :
    monitorCreate locations ps b = (statPluginBuild ps b.id (functionSource b.id code),
      if b.fields.events = [] then [] else (locations b).map fun obj =>
        ⟨obj, lookupFunction (statPluginBuild ps b.id (functionSource b.id code)) b.id⟩) := by
  unfold monitorCreate
  rw [h]
  simp only [Option.isSome_some, if_true]
  split_ifs <;> rfl

section Registry
variable {init : List Native} {bs : List Block} {ps : List StatPlugin}

theorem Built.start : Built init [] (init.map Native.plugin) :=
  ⟨[], (List.append_nil _).symm, fun id => by simp [firstCode]⟩

/-- A build adds the function of a new id. -/
theorem Built.build {b : Block} {code : Text} (h : Built init bs ps) (hcode : b.fields.reductionCode = some code) :
    Built init (bs ++ [b]) (statPluginBuild ps b.id (functionSource b.id code)) := by
  obtain ⟨fs, rfl, hfs⟩ := h
  have hlookup : pluginLookup (init.map Native.plugin ++ fs.map fun f => built f.1 f.2) b.id =
      (pluginLookup (init.map Native.plugin) b.id).or ((fs.lookup b.id).map (built b.id)) := by
    rw [pluginLookup_append, pluginLookup_built]
  unfold statPluginBuild
  rw [hlookup]
  by_cases hnew : ∀ p ∈ init, p.id ≠ b.id
  · have hb := hfs b.id
    rw [if_pos hnew] at hb
    rw [(pluginLookup_native init b.id).mpr hnew, hb, Option.none_or]
    cases hfirst : firstCode bs b.id with
    | some first =>
      refine ⟨fs, rfl, fun id => ?_⟩
      rw [hfs id, firstCode_append]
      by_cases hid : b.id = id
      · subst hid
        rw [hfirst, Option.some_or]
      · rw [if_neg hid, Option.or_none]
    | none =>
      refine ⟨fs ++ [(b.id, functionSource b.id code)], ?_, fun id => ?_⟩
      · rw [List.map_append, List.append_assoc]
        rfl
      · rw [lookup_concat, hfs id, firstCode_append]
        by_cases hid : b.id = id
        · subst hid
          rw [if_pos hnew, if_pos hnew, hfirst, if_pos rfl, if_pos rfl, hcode]
          rfl
        · rw [if_neg hid, if_neg (Ne.symm hid), Option.or_none, Option.or_none]
  · have hsome : pluginLookup (init.map Native.plugin) b.id ≠ none :=
      fun hn => hnew ((pluginLookup_native init b.id).mp hn)
    obtain ⟨p, hp⟩ := Option.ne_none_iff_exists'.mp hsome
    rw [hp, Option.some_or]
    refine ⟨fs, rfl, fun id => ?_⟩
    rw [hfs id, firstCode_append]
    by_cases hid : b.id = id
    · subst hid
      rw [if_neg hnew, if_neg hnew]
    · rw [if_neg hid, Option.or_none]

theorem Built.step (locations : Block → List Obj) (b : Block) (h : Built init bs ps) :
    Built init (bs ++ [b]) (monitorCreate locations ps b).1 := by
  cases hcode : b.fields.reductionCode with
  | some code =>
    have := h.build hcode
    unfold monitorCreate
    rw [hcode]
    split_ifs <;> exact this
  | none =>
    obtain ⟨fs, rfl, hfs⟩ := h
    have hsame : Built init (bs ++ [b]) (init.map Native.plugin ++ fs.map fun f => built f.1 f.2) := by
      refine ⟨fs, rfl, fun id => ?_⟩
      rw [hfs id, firstCode_append, hcode, ite_self, Option.or_none]
    unfold monitorCreate
    rw [hcode]
    split_ifs <;> exact hsame

theorem built_createAll (locations : Block → List Obj) (init : List Native) (bs : List Block) :
    Built init bs (createAll locations (init.map Native.plugin) bs) := by
  induction bs using List.reverseRecOn with
  | nil => exact Built.start
  | append_singleton bs b ih =>
    unfold createAll at ih ⊢
    rw [List.foldl_concat]
    exact ih.step locations b

/-- The function that the lookup finds for an id. -/
theorem Built.lookup_eq_generated (h : Built init bs ps) (id code : Text) :
    lookupFunction ps id = some (.generated (functionSource id code)) ↔
      (∀ p ∈ init, p.id ≠ id ∧ id ∉ p.exports) ∧ firstCode bs id = some code := by
  obtain ⟨fs, rfl, hfs⟩ := h
  rw [lookupFunction_append, lookupFunction_built, hfs id]
  constructor
  · intro h
    cases hn : lookupFunction (init.map Native.plugin) id with
    | some g =>
      rw [hn, Option.some_or] at h
      exact absurd (hn.trans h) (lookupFunction_native_ne init id _)
    | none =>
      rw [hn, Option.none_or] at h
      have hexports := (lookupFunction_native init id).mp hn
      split_ifs at h with hnew
      · refine ⟨fun p hp => ⟨hnew p hp, hexports p hp⟩, ?_⟩
        cases hfirst : firstCode bs id with
        | none =>
          rw [hfirst] at h
          cases h
        | some first =>
          rw [hfirst] at h
          simp only [Option.map_some, Option.some.injEq, Function.generated.injEq] at h
          exact congrArg some (functionSource_inj h)
      · cases h
  · rintro ⟨hinit, hfirst⟩
    rw [(lookupFunction_native init id).mpr fun p hp => (hinit p hp).2, if_pos fun p hp => (hinit p hp).1, hfirst]
    rfl

end Registry

/-- **Every monitor of a configuration runs the reduction of its own block, if and only if the id of each block with a
reduction is neither the name nor an export of a plugin loaded at the start, and the first block of that id with a
reduction has the same one.** -/
theorem own_reduction_iff (locations : Block → List Obj) (init : List Native) (bs : List Block) :
    OwnReduction locations init bs ↔ IdsFit locations init bs := by
  have hmodel : ∀ (pre : List Block) (b : Block) (code : Text), b.fields.reductionCode = some code →
      (monitorCreate locations (createAll locations (init.map Native.plugin) pre) b).2 =
        if b.fields.events = [] then [] else (locations b).map fun obj =>
          ⟨obj, lookupFunction (createAll locations (init.map Native.plugin) (pre ++ [b])) b.id⟩ := by
    intro pre b code hcode
    have hlast : createAll locations (init.map Native.plugin) (pre ++ [b]) =
        statPluginBuild (createAll locations (init.map Native.plugin) pre) b.id (functionSource b.id code) := by
      unfold createAll
      rw [List.foldl_concat, monitorCreate_of_code hcode]
    rw [monitorCreate_of_code hcode, hlast]
  constructor
  · intro h pre b post code hbs hcode hevents hlocations
    refine ((built_createAll locations init (pre ++ [b])).lookup_eq_generated b.id code).mp ?_
    obtain ⟨obj, hobj⟩ := List.exists_mem_of_ne_nil _ hlocations
    have hms := hmodel pre b code hcode
    rw [if_neg hevents] at hms
    refine h pre b post code hbs hcode ⟨obj, _⟩ ?_
    rw [hms]
    exact List.mem_map_of_mem hobj
  · intro h pre b post code hbs hcode m hm
    rw [hmodel pre b code hcode] at hm
    split_ifs at hm with hevents
    · cases hm
    · obtain ⟨obj, hobj, rfl⟩ := List.mem_map.mp hm
      exact ((built_createAll locations init (pre ++ [b])).lookup_eq_generated b.id code).mpr
        (h pre b post code hbs hcode hevents (List.ne_nil_of_mem hobj))

/-- The monitor `m` of the event of the fake plugin with the reduction `a=x`. -/
def reducedBlock (x : Text) : Block where
  id := ['m']
  fields := { Fields.reset with
    perfPluginName := some "fake".toList
    reductionPluginName := some ['m']
    reductionCode := some (wrapReduction ("m->samples[0]=".toList ++ x ++ ";\n".toList))
    events := ["FAKE".toList]
    reductions := [['a']] }

def reducedText (x : String) : Text :=
  "m\x7bPERF_LIB:=fake;EVSET:=FAKE;REDUCTION:=a=".toList ++ x.toList ++ ";\x7d".toList

/-- Two monitors of one id on the machine: the second gets the function of the first. -/
theorem second_reduction_lost :
    config (fun _ => some 0) (scan (reducedText "$0+1" ++ reducedText "$0*2")) =
        some [reducedBlock "events[0]\n+1".toList, reducedBlock "events[0]\n*2".toList] ∧
      ¬ OwnReduction (fun _ => [Topo.machine]) []
        [reducedBlock "events[0]\n+1".toList, reducedBlock "events[0]\n*2".toList] := by
  refine ⟨by decide +kernel, fun h => ?_⟩
  have hmodel := h [reducedBlock "events[0]\n+1".toList] (reducedBlock "events[0]\n*2".toList) [] _ rfl rfl _
    List.mem_cons_self
  exact absurd hmodel (by decide +kernel)

end Hmon.Config
