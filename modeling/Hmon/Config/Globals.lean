import Hmon.Config.Create

/-!
# The global variables behind the parser (`parser.y`)

* `Ptr` : a pointer variable, NULL, to an object, or to freed memory; `MemoryFault` : what goes wrong with one;
* `Globals` : the variables that the fields of a monitor set; `resetMonitorFields`, `importInit`, `importFinalize`;
* `assignementG`, `reductionG`, `fieldG`, `monitorG` : the productions with the actions on these variables;
* `hmonImport` : an import, with the calls of `new_hmonitor` that each of its monitors makes;
* `Stands g f` : the variables stand for the fields `f`; `monitor_together` : **a monitor creates what its
  parsed fields say**.
-/

namespace Hmon.Config
open Lib

/-! ## Pointers -/

/-- A pointer variable. `freed` is one that still holds the address of an object that was freed. -/
inductive Ptr (α : Type)
  | null
  | live (a : α)
  | freed

inductive MemoryFault
  | nullDeref
  | useAfterFree
  | doubleFree
  | array (f : Fault)
  deriving DecidableEq

namespace Ptr
variable {α : Type}

def get : Ptr α → Except MemoryFault α
  | null => .error .nullDeref
  | live a => .ok a
  | freed => .error .useAfterFree

/-- The object of a variable that may be NULL. -/
def get? : Ptr α → Except MemoryFault (Option α)
  | null => .ok none
  | live a => .ok (some a)
  | freed => .error .useAfterFree

/-- `if(p){free(p);}`: the variable keeps its value. -/
def free : Ptr α → Except MemoryFault (Ptr α)
  | null => .ok null
  | live _ => .ok freed
  | freed => .error .doubleFree

/-- The variable as an optional value. -/
def ofOption : Option α → Ptr α
  | none => null
  | some a => live a

@[simp] theorem get?_ofOption (o : Option α) : (ofOption o).get? = .ok o := by
  cases o <;> rfl

end Ptr

/-- `empty_harray`: nothing for NULL. -/
def emptyPtr (p : Ptr (Harray Text)) : Except MemoryFault (Ptr (Harray Text)) :=
  match p with
  | .null => .ok .null
  | .live a => .ok (.live (emptyHarray a))
  | .freed => .error .useAfterFree

def pushPtr (p : Ptr (Harray Text)) (s : Text) : Except MemoryFault (Ptr (Harray Text)) := do
  let a ← p.get
  match harrayPush a (some s) with
  | .ok a => .ok (.live a)
  | .error f => .error (.array f)

/-! ## The variables -/

structure Globals where
  perfPluginName : Ptr Text
  reductionPluginName : Ptr Text
  reductionCode : Ptr Text
  display : Int
  window : Nat
  locationDepth : Nat
  locationIndex : Int
  events : Ptr (Harray Text)
  reductions : Ptr (Harray Text)
  output : Output

/-- The variables when the program starts. -/
def Globals.init : Globals := ⟨.null, .null, .null, 0, 0, 0, 0, .null, .null, .none⟩

def resetMonitorFields (g : Globals) : Except MemoryFault Globals := do
  let _ ← g.perfPluginName.free
  let _ ← g.reductionCode.free
  let _ ← g.reductionPluginName.free
  let events ← emptyPtr g.events
  let reductions ← emptyPtr g.reductions
  .ok ⟨.null, .null, .null, 0, 1, 0, -1, events, reductions, .stdout⟩

def importInit (g : Globals) : Except MemoryFault Globals :=
  resetMonitorFields { g with events := .live (newHarray 16), reductions := .live (newHarray 16) }

def importFinalize (g : Globals) : Except MemoryFault Globals := do
  let reductionCode ← g.reductionCode.free
  let reductionPluginName ← g.reductionPluginName.free
  let reductions ← g.reductions.free
  let events ← g.events.free
  .ok { g with reductionCode, reductionPluginName, reductions, events }

/-! ## Actions -/

/-- `NAME '=' commutative_expr` -/
def Globals.assign (g : Globals) (n x : Text) : Except MemoryFault Globals := do
  let code ← g.reductionCode.get?
  let a ← g.reductions.get
  let reductions ← pushPtr g.reductions n
  .ok { g with
    reductionCode := .live
      (code.getD [] ++ "m->samples[".toList ++ decimal a.length ++ "]=".toList ++ x ++ ";\n".toList)
    reductions }

/-- The action of `assignement_list` as a reduction. -/
def Globals.wrap (g : Globals) : Except MemoryFault Globals := do
  let code ← g.reductionCode.get
  .ok { g with reductionCode := .live (wrapReduction code) }

/-- The loop over the default names. -/
def Globals.pushReductions (g : Globals) (name : Text) : Nat → Except MemoryFault Globals
  | 0 => .ok g
  | n + 1 => do
    let reductions ← pushPtr g.reductions name
    pushReductions { g with reductions } name n

/-- `INTEGER '#' NAME` -/
def Globals.reduce (g : Globals) (n : Int) (plugin : Text) : Except MemoryFault Globals :=
  pushReductions { g with reductionPluginName := .live plugin } (('V' :: decimal n.toNat).take 15) n.toNat

def Globals.pushEvent (g : Globals) (s : Text) : Except MemoryFault Globals := do
  let events ← pushPtr g.events s
  .ok { g with events }

/-- What `monitor_create` finds in the variables. -/
def Globals.read (g : Globals) : Except MemoryFault Fields := do
  let perfPluginName ← g.perfPluginName.get?
  let reductionPluginName ← g.reductionPluginName.get?
  let reductionCode ← g.reductionCode.get?
  let events ← g.events.get
  let reductions ← g.reductions.get
  .ok ⟨perfPluginName, reductionPluginName, reductionCode, g.display, g.window, g.locationDepth, g.locationIndex,
    events.toList, reductions.toList, g.output⟩

/-- The calls of `new_hmonitor` of a block, and the display of the monitors that are registered. -/
structure BlockCalls where
  newHmonitor : List NewArgs
  display : Int
  deriving DecidableEq

/-- `NAME '{' field_list '}'`, after the fields: the default name of the reduction, `monitor_create`, which ends with
`reset_monitor_fields`. -/
def Globals.create (inside : Cpuset → Nat → List Obj) (root : Option Obj) (id : Text) (g : Globals) :
    Except MemoryFault (BlockCalls × Globals) := do
  let plugin := match g.reductionPluginName, g.reductionCode with
    | .null, .null => .null
    | .null, _ => .live id
    | p, _ => p
  let g := { g with reductionPluginName := plugin }
  let f ← g.read
  match Block.calls inside root ⟨id, f⟩ with
  | .error _ => .error .nullDeref
  | .ok calls => do
    let g ← resetMonitorFields g
    .ok (⟨calls, f.display⟩, g)

/-! ## Productions -/

/-- The variables in the course of a parse. -/
abbrev Run := Except MemoryFault Globals

def assignementG (r : Run) : List Token → Option (Run × List Token)
  | .name n :: .char '=' :: ts =>
    match commExpr [] .empty none ts with
    | some (x, ts) => some (r >>= fun g => g.assign n x, ts)
    | none => none
  | _ => none

def assignementListG (r : Run) (ts : List Token) : Option (Run × List Token) :=
  sepBy assignementG comma (ts.length + 1) r ts

def reductionG (r : Run) (ts : List Token) : Option (Run × List Token) :=
  match ts with
  | .integer n :: .char '#' :: .name p :: ts => some (r >>= fun g => g.reduce (atoi n) p, ts)
  | ts =>
    match assignementListG r ts with
    | some (r, ts) => some (r >>= Globals.wrap, ts)
    | none => none

def eventG (r : Run) : List Token → Option (Run × List Token)
  | .name s :: ts => some (r >>= fun g => g.pushEvent s, ts)
  | .perfCtr s :: ts => some (r >>= fun g => g.pushEvent s, ts)
  | .netCtr s :: ts => some (r >>= fun g => g.pushEvent s, ts)
  | _ => none

def semicolonG (r : Run) : List Token → Option (Run × List Token)
  | .char ';' :: ts => some (r, ts)
  | _ => none

def fieldG (locationParse : Text → Option Nat) (r : Run) : List Token → Option (Run × List Token)
  | .objField :: .name s :: .char ';' :: ts =>
    (locationParse s).map fun d => (r.map fun g => { g with locationDepth := d }, ts)
  | .objField :: .name s :: .char ':' :: .integer i :: .char ';' :: ts =>
    (locationParse s).map fun d => (r.map fun g => { g with locationDepth := d, locationIndex := atoi i }, ts)
  | .reductionField :: ts => (reductionG r ts).bind fun (r, ts) => semicolonG r ts
  | .perfLibField :: .name s :: .char ';' :: ts => some (r.map fun g => { g with perfPluginName := .live s }, ts)
  | .displayField :: .integer i :: .char ';' :: ts => some (r.map fun g => { g with display := atoi i }, ts)
  | .outputField :: .integer i :: .char ';' :: ts =>
    let out := atoi i
    some (r.map fun g => { g with output := if out ≤ 0 then .none else if out = 2 then .stderr else .stdout }, ts)
  | .outputField :: .path p :: .char ';' :: ts => some (r.map fun g => { g with output := .file p }, ts)
  | .windowField :: .integer i :: .char ';' :: ts =>
    some (r.map fun g => { g with window := ((atoi i) % 4294967296).toNat }, ts)
  | .evsetField :: ts => (sepBy eventG comma (ts.length + 1) r ts).bind fun (r, ts) => semicolonG r ts
  | _ => none

def fieldListG (locationParse : Text → Option Nat) (r : Run) (ts : List Token) : Option (Run × List Token) :=
  sepBy (fieldG locationParse) nextField (ts.length + 1) r ts

/-- The variables and the calls so far. -/
abbrev ImportRun := Except MemoryFault (List BlockCalls × Globals)

section Import
variable (inside : Cpuset → Nat → List Obj) (root : Option Obj) (locationParse : Text → Option Nat)

def monitorG (r : ImportRun) : List Token → Option (ImportRun × List Token)
  | .name id :: .char '{' :: ts =>
    match fieldListG locationParse (r.map Prod.snd) ts with
    | some (r', .char '}' :: ts) =>
      some (do
        let (calls, _) ← r
        let g ← r'
        let (new, g) ← g.create inside root id
        .ok (calls ++ [new], g), ts)
    | _ => none
  | _ => none

/-- `yyparse`; `none` is a syntax error, which ends the program. -/
def yyparse (r : ImportRun) (ts : List Token) : Option ImportRun :=
  match sepBy (monitorG inside root locationParse) nextMonitor (ts.length + 1) r ts with
  | some (r, []) => some r
  | _ => none

end Import

/-- An import: hwloc at the time, the domain, and the file. -/
structure Import where
  covering : Cpuset → Option Obj
  inside : Cpuset → Nat → List Obj
  locationParse : Text → Option Nat
  domain : Cpuset
  text : Text

/-- `hmon_import`: the calls that the blocks of the file make, and the variables. -/
def hmonImport (i : Import) (g : Globals) : Option ImportRun :=
  let start : ImportRun := do
    let g ← importInit g
    .ok ([], g)
  (yyparse i.inside (i.covering i.domain) i.locationParse start (scan i.text)).map fun r => do
    let (calls, g) ← r
    let g ← importFinalize g
    .ok (calls, g)

/-- A sequence of imports: the calls of each. -/
def hmonImports : List Import → Globals → Option (Except MemoryFault (List (List BlockCalls)))
  | [], _ => some (.ok [])
  | i :: is, g =>
    (hmonImport i g).bind fun r =>
      match r with
      | .error f => some (.error f)
      | .ok (calls, g) => (hmonImports is g).map fun r => r.map (calls :: ·)

/-! ## The variables stand for the fields -/

/-- An array that lives holds the strings. -/
def Lists (p : Ptr (Harray Text)) (xs : List Text) : Prop :=
  ∃ a, p = .live a ∧ a.Fits ∧ a.Binary ∧ a.elems = xs.map some

structure Stands (g : Globals) (f : Fields) : Prop where
  perf : g.perfPluginName = .ofOption f.perfPluginName
  plugin : g.reductionPluginName = .ofOption f.reductionPluginName
  code : g.reductionCode = .ofOption f.reductionCode
  display : g.display = f.display
  window : g.window = f.window
  depth : g.locationDepth = f.locationDepth
  index : g.locationIndex = f.locationIndex
  output : g.output = f.output
  events : Lists g.events f.events
  reductions : Lists g.reductions f.reductions

theorem Stands.setReductions {g : Globals} {f : Fields} {p : Ptr (Harray Text)} {xs : List Text} (h : Stands g f)
    (hp : Lists p xs) : Stands { g with reductions := p } { f with reductions := xs } :=
  ⟨h.perf, h.plugin, h.code, h.display, h.window, h.depth, h.index, h.output, h.events, hp⟩

theorem Stands.setCode {g : Globals} {f : Fields} (h : Stands g f) (code : Option Text) :
    Stands { g with reductionCode := .ofOption code } { f with reductionCode := code } :=
  ⟨h.perf, h.plugin, rfl, h.display, h.window, h.depth, h.index, h.output, h.events, h.reductions⟩

theorem Stands.setPlugin {g : Globals} {f : Fields} (h : Stands g f) (plugin : Option Text) :
    Stands { g with reductionPluginName := .ofOption plugin } { f with reductionPluginName := plugin } :=
  ⟨h.perf, rfl, h.code, h.display, h.window, h.depth, h.index, h.output, h.events, h.reductions⟩

/-- As many events and samples as an `unsigned` length can grow to. -/
def Sized (f : Fields) : Prop := f.events.length ≤ 2147483648 ∧ f.reductions.length ≤ 2147483648

/-- A run that has a result has one that stands for the fields; under `P` it has one when the arrays can grow so far. -/
def Sim (P : Prop) (r : Run) (f : Fields) : Prop :=
  (∀ g, r = .ok g → Stands g f) ∧ (P → Sized f → ∃ g, r = .ok g)

variable {p : Ptr (Harray Text)} {xs : List Text} {s : Text} {P : Prop} {r : Run} {f f' : Fields} {g : Globals}

theorem Lists.length {a : Harray Text} (hf : a.Fits) (he : a.elems = xs.map some) : a.length = xs.length := by
  rw [← Harray.length_elems hf, he, List.length_map]

theorem Lists.toList {a : Harray Text} (he : a.elems = xs.map some) : a.toList = xs := by
  rw [Harray.toList, he, List.reduceOption, List.filterMap_map]
  exact List.filterMap_some

/-- An array in its largest allocation is full. -/
theorem Lists.sized (h : Lists p xs) : xs.length ≤ 2147483648 := by
  obtain ⟨a, -, hf, hbin, he⟩ := h
  rw [← Lists.length hf he]
  exact le_trans hf hbin.le

theorem Stands.sized (h : Stands g f) : Sized f := ⟨h.events.sized, h.reductions.sized⟩

theorem pushPtr_lists {p' : Ptr (Harray Text)} (h : Lists p xs) (hp : pushPtr p s = .ok p') : Lists p' (xs ++ [s]) := by
  obtain ⟨a, rfl, hf, hbin, he⟩ := h
  simp only [pushPtr, Ptr.get, bind, Except.bind] at hp
  split at hp
  · rename_i b hb
    cases hp
    obtain ⟨helems, hfits⟩ := harrayPush_spec hf hb
    exact ⟨b, rfl, hfits, harrayPush_binary hf hbin hb, by rw [helems, he, List.map_append]; rfl⟩
  · cases hp

theorem pushPtr_ok (h : Lists p xs) (hlen : xs.length < 2 ^ 31) (s : Text) : ∃ p', pushPtr p s = .ok p' := by
  obtain ⟨a, rfl, hf, hbin, he⟩ := h
  obtain ⟨b, hb⟩ := harrayPush_ok (some s) hf hbin.pos (by rwa [Lists.length hf he])
  simp only [pushPtr, Ptr.get, bind, Except.bind, hb]
  exact ⟨_, rfl⟩

/-- An action that grows the fields. -/
theorem Sim.bind {act : Globals → Run} (h : Sim P r f) (hsized : Sized f' → Sized f)
    (hact : ∀ g, Stands g f → Sim P (act g) f') : Sim P (r >>= act) f' := by
  constructor
  · intro g' hg'
    cases r with
    | error e => cases hg'
    | ok g => exact (hact g (h.1 g rfl)).1 g' hg'
  · intro hp hs
    obtain ⟨g, rfl⟩ := h.2 hp (hsized hs)
    exact (hact g (h.1 g rfl)).2 hp hs

theorem Sim.ok (h : Stands g f) : Sim P (.ok g) f := ⟨fun _ hg => by cases hg; exact h, fun _ _ => ⟨g, rfl⟩⟩

theorem Sim.map {act : Globals → Globals} (h : Sim P r f) (hsized : Sized f' → Sized f)
    (hact : ∀ g, Stands g f → Stands (act g) f') : Sim P (r.map act) f' := by
  constructor
  · intro g' hg'
    cases r with
    | error e => cases hg'
    | ok g => cases hg'; exact hact g (h.1 g rfl)
  · intro hp hs
    obtain ⟨g, rfl⟩ := h.2 hp (hsized hs)
    exact ⟨_, rfl⟩

/-! ## The actions -/

theorem pushEvent_sim (h : Stands g f) (s : Text) : Sim P (g.pushEvent s) { f with events := f.events ++ [s] } := by
  constructor
  · intro g' hg'
    simp only [Globals.pushEvent, bind, Except.bind] at hg'
    split at hg'
    · cases hg'
    · rename_i p hp
      cases hg'
      exact { h with events := pushPtr_lists h.events hp }
  · intro hp hs
    have hlen := hs.1
    rw [List.length_append, List.length_singleton] at hlen
    obtain ⟨p, hpush⟩ := pushPtr_ok h.events (by omega) s
    simp only [Globals.pushEvent, bind, Except.bind, hpush]
    exact ⟨_, rfl⟩

theorem pushReductions_sim (h : Stands g f) (name : Text) (n : Nat) :
    Sim P (g.pushReductions name n) { f with reductions := f.reductions ++ List.replicate n name } := by
  induction n generalizing g f with
  | zero =>
    rw [List.replicate_zero, List.append_nil]
    exact Sim.ok h
  | succ n ih =>
    have hnext : f.reductions ++ List.replicate (n + 1) name = (f.reductions ++ [name]) ++ List.replicate n name := by
      rw [List.replicate_succ, List.append_assoc, List.singleton_append]
    unfold Globals.pushReductions
    constructor
    · intro g' hg'
      simp only [bind, Except.bind] at hg'
      split at hg'
      · cases hg'
      · rename_i p hp
        rw [hnext]
        exact (ih (h.setReductions (pushPtr_lists h.reductions hp))).1 g' hg'
    · intro hp hs
      have hlen := hs.2
      rw [hnext] at hs
      rw [List.length_append, List.length_replicate] at hlen
      obtain ⟨p, hpush⟩ := pushPtr_ok h.reductions (by omega) name
      simp only [bind, Except.bind, hpush]
      exact (ih (h.setReductions (pushPtr_lists h.reductions hpush))).2 hp hs

theorem assign_sim (h : Stands g f) (n x : Text) : Sim P (g.assign n x) { f with
    reductionCode := some (f.reductionCode.getD [] ++ "m->samples[".toList ++ decimal f.reductions.length ++
      "]=".toList ++ x ++ ";\n".toList)
    reductions := f.reductions ++ [n] } := by
  obtain ⟨a, ha, hf, -, he⟩ := h.reductions
  have hlen := Lists.length hf he
  have hcode : g.reductionCode.get? = .ok f.reductionCode := by
    rw [h.code, Ptr.get?_ofOption]
  have hget : g.reductions.get = .ok a := by
    rw [ha]
    rfl
  constructor
  · intro g' hg'
    simp only [Globals.assign, bind, Except.bind, hcode, hget] at hg'
    split at hg'
    · cases hg'
    · rename_i p hp
      cases hg'
      rw [hlen]
      exact (h.setCode (some _)).setReductions (pushPtr_lists h.reductions hp)
  · intro hp hs
    have hsize := hs.2
    rw [List.length_append, List.length_singleton] at hsize
    obtain ⟨p, hpush⟩ := pushPtr_ok h.reductions (by omega) n
    simp only [Globals.assign, bind, Except.bind, hcode, hget, hpush]
    exact ⟨_, rfl⟩

theorem wrap_sim (h : Stands g f) (hcode : f.reductionCode.isSome) :
    Sim P g.wrap { f with reductionCode := f.reductionCode.map wrapReduction } := by
  obtain ⟨code, hc⟩ := Option.isSome_iff_exists.mp hcode
  have hget : g.reductionCode.get = .ok code := by
    rw [h.code, hc]
    rfl
  unfold Globals.wrap
  simp only [bind, Except.bind, hget]
  rw [hc]
  exact Sim.ok (h.setCode (some _))

/-! ## The productions -/

/-- The parse of the variables and the parse of the fields go together. -/
abbrev Together (P : Prop) (o : Option (Run × List Token)) (o' : Option (Fields × List Token)) : Prop :=
  Option.Rel (Aligned (Sim P)) o o'

/-- Fields whose arrays only grew. -/
theorem sized_of_le (he : f.events.length ≤ f'.events.length) (hr : f.reductions.length ≤ f'.reductions.length)
    (h : Sized f') : Sized f := ⟨he.trans h.1, hr.trans h.2⟩

theorem assignement_together (h : Sim P r f) (ts : List Token) : Together P (assignementG r ts) (assignement f ts) := by
  unfold assignementG
  split
  · rename_i n ts'
    simp only [assignement]
    cases commExpr [] .empty none ts' with
    | none => exact .none
    | some o =>
      obtain ⟨x, ts''⟩ := o
      refine .some ⟨h.bind (sized_of_le le_rfl ?_) fun g hg => assign_sim hg n x, rfl⟩
      rw [List.length_append]
      exact Nat.le_add_right _ _
  · rename_i hno
    rw [assignement.eq_2 _ _ hno]
    exact .none

theorem assignementList_together (h : Sim P r f) (ts : List Token) :
    Together P (assignementListG r ts) (assignementList f ts) :=
  sepBy_rel (fun _ _ ts h => assignement_together h ts) h

theorem assignement_code {ts ts' : List Token} (h : assignement f ts = some (f', ts')) : f'.reductionCode.isSome := by
  unfold assignement at h
  split at h
  · split at h
    · cases h
      rfl
    · cases h
  · cases h

/-- A reduction that is no plugin. -/
theorem reduction_list {ts : List Token} (h : ∀ n p ts', ts ≠ .integer n :: .char '#' :: .name p :: ts') :
    reductionG r ts = (assignementListG r ts).map (fun o => (o.1 >>= Globals.wrap, o.2)) ∧
      reduction f ts = (assignementList f ts).map fun o =>
        ({ o.1 with reductionCode := o.1.reductionCode.map wrapReduction }, o.2) := by
  constructor
  · unfold reductionG
    split
    · exact absurd rfl (h _ _ _)
    · cases assignementListG r ts <;> rfl
  · unfold reduction
    split
    · exact absurd rfl (h _ _ _)
    · cases assignementList f ts <;> rfl

theorem reduction_together (h : Sim P r f) (ts : List Token) : Together P (reductionG r ts) (reduction f ts) := by
  by_cases hplugin : ∃ n p ts', ts = .integer n :: .char '#' :: .name p :: ts'
  · obtain ⟨n, p, ts', rfl⟩ := hplugin
    refine .some ⟨h.bind (sized_of_le le_rfl ?_) fun g hg => pushReductions_sim (hg.setPlugin (some p)) _ _, rfl⟩
    rw [List.length_append]
    exact Nat.le_add_right _ _
  · have hno : ∀ n p ts', ts ≠ .integer n :: .char '#' :: .name p :: ts' := fun n p ts' he => hplugin ⟨n, p, ts', he⟩
    obtain ⟨hG, hF⟩ := reduction_list (r := r) (f := f) hno
    have hrel := assignementList_together h ts
    rw [hG, hF]
    cases hl : assignementList f ts with
    | none =>
      rw [hl] at hrel
      generalize assignementListG r ts = o at hrel ⊢
      cases hrel
      exact .none
    | some a =>
      obtain ⟨f₁, ts₁⟩ := a
      have hcode : f₁.reductionCode.isSome :=
        sepBy_result (P := fun f => f.reductionCode.isSome = true) (fun _ _ _ _ => assignement_code) hl
      rw [hl] at hrel
      generalize assignementListG r ts = o at hrel ⊢
      cases hrel with
      | @some b c hbc =>
        obtain ⟨hsim, hts⟩ := hbc
        exact .some ⟨hsim.bind (fun hs => hs) fun g hg => wrap_sim hg hcode, hts⟩

theorem event_together (h : Sim P r f) (ts : List Token) :
    Option.Rel (Aligned fun r es => Sim P r { f with events := es })
    (eventG r ts) (event f.events ts) := by
  have hpush (s : Text) : Sim P (r >>= fun g => g.pushEvent s) { f with events := f.events ++ [s] } := by
    refine h.bind (sized_of_le ?_ le_rfl) fun g hg => pushEvent_sim hg s
    rw [List.length_append]
    exact Nat.le_add_right _ _
  unfold eventG
  split
  · exact .some ⟨hpush _, rfl⟩
  · exact .some ⟨hpush _, rfl⟩
  · exact .some ⟨hpush _, rfl⟩
  · rename_i h1 h2 h3
    rw [event.eq_4 _ _ h1 h2 h3]
    exact .none

theorem semicolon_together (h : Sim P r f) (ts : List Token) : Together P (semicolonG r ts) (semicolon f ts) := by
  unfold semicolonG
  split
  · exact .some ⟨h, rfl⟩
  · rename_i hno
    rw [semicolon.eq_2 _ _ hno]
    exact .none

/-- Parses that go together go on together. -/
theorem rel_bind {S S' T U U' : Type} {R : S → S' → Prop} {Q : U → U' → Prop} {o : Option (S × List T)}
    {o' : Option (S' × List T)} {k : S × List T → Option (U × List T)} {k' : S' × List T → Option (U' × List T)}
    (h : Option.Rel (Aligned R) o o')
    (hk : ∀ s s' ts, R s s' → Option.Rel (Aligned Q) (k (s, ts)) (k' (s', ts))) :
    Option.Rel (Aligned Q) (o.bind k) (o'.bind k') := by
  cases h with
  | none => exact .none
  | @some a b hab =>
    obtain ⟨s, ts⟩ := a
    obtain ⟨s', ts'⟩ := b
    obtain ⟨hr, hts⟩ := hab
    cases hts
    exact hk s s' ts hr

theorem events_together (h : Sim P r f) (n : Nat) (ts : List Token) :
    Option.Rel (Aligned fun r es => Sim P r { f with events := es }) (sepBy eventG comma n r ts)
      (sepBy event comma n f.events ts) :=
  sepBy_rel (fun _ _ ts h => event_together h ts) h

/-- **A field changes the variables as it changes the fields.** -/
theorem field_together (locationParse : Text → Option Nat) (h : Sim P r f) (ts : List Token) :
    Together P (fieldG locationParse r ts) (field locationParse f ts) := by
  unfold fieldG
  split
  · rename_i s ts'
    simp only [field]
    cases locationParse s with
    | none => exact .none
    | some d => exact .some ⟨h.map (fun hs => hs) fun g hg => { hg with depth := rfl }, rfl⟩
  · rename_i s i ts'
    simp only [field]
    cases locationParse s with
    | none => exact .none
    | some d => exact .some ⟨h.map (fun hs => hs) fun g hg => { hg with depth := rfl, index := rfl }, rfl⟩
  · exact rel_bind (reduction_together h _) fun _ _ ts h => semicolon_together h ts
  · exact .some ⟨h.map (fun hs => hs) fun g hg => { hg with perf := rfl }, rfl⟩
  · exact .some ⟨h.map (fun hs => hs) fun g hg => { hg with display := rfl }, rfl⟩
  · exact .some ⟨h.map (fun hs => hs) fun g hg => { hg with output := rfl }, rfl⟩
  · exact .some ⟨h.map (fun hs => hs) fun g hg => { hg with output := rfl }, rfl⟩
  · exact .some ⟨h.map (fun hs => hs) fun g hg => { hg with window := rfl }, rfl⟩
  · exact rel_bind (events_together h _ _) fun _ _ ts h => semicolon_together h ts
  · rename_i h1 h2 h3 h4 h5 h6 h7 h8 h9
    rw [field.eq_10 _ _ _ h1 h2 h3 h4 h5 h6 h7 h8 h9]
    exact .none

/-! ## Monitors -/

theorem emptyPtr_lists (h : Lists p xs) : ∃ p', emptyPtr p = .ok p' ∧ Lists p' [] := by
  obtain ⟨a, rfl, hf, hbin, -⟩ := h
  exact ⟨_, rfl, _, rfl, Nat.zero_le _, hbin, rfl⟩

theorem free_ofOption {α : Type} (o : Option α) : ∃ p, (Ptr.ofOption o).free = .ok p := by
  cases o with
  | none => exact ⟨_, rfl⟩
  | some a => exact ⟨_, rfl⟩

/-- After a monitor the variables stand for the defaults, whatever the monitor was. -/
theorem reset_stands (h : Stands g f) : ∃ g', resetMonitorFields g = .ok g' ∧ Stands g' .reset := by
  obtain ⟨p₁, h₁⟩ := free_ofOption f.perfPluginName
  obtain ⟨p₂, h₂⟩ := free_ofOption f.reductionCode
  obtain ⟨p₃, h₃⟩ := free_ofOption f.reductionPluginName
  obtain ⟨events, he, hevents⟩ := emptyPtr_lists h.events
  obtain ⟨reductions, hr, hreductions⟩ := emptyPtr_lists h.reductions
  unfold resetMonitorFields
  simp only [bind, Except.bind, h.perf, h₁, h.code, h₂, h.plugin, h₃, he, hr]
  exact ⟨_, rfl, rfl, rfl, rfl, rfl, rfl, rfl, rfl, rfl, hevents, hreductions⟩

theorem read_stands (h : Stands g f) : g.read = .ok f := by
  obtain ⟨events, he, hef, -, hes⟩ := h.events
  obtain ⟨reductions, hr, hrf, -, hrs⟩ := h.reductions
  unfold Globals.read
  simp only [bind, Except.bind, h.perf, h.plugin, h.code, Ptr.get?_ofOption, he, hr, Ptr.get, Lists.toList hes,
    Lists.toList hrs, h.display, h.window, h.depth, h.index, h.output]

/-- The block that the parser makes of the fields. -/
def blockOf (id : Text) (f : Fields) : Block :=
  ⟨id, { f with reductionPluginName :=
    if f.reductionCode.isSome then f.reductionPluginName.or (some id) else f.reductionPluginName }⟩

section Create
variable {inside : Cpuset → Nat → List Obj} {root : Option Obj} {locationParse : Text → Option Nat}

/-- `monitor_create` makes the calls of the block, and leaves the defaults. -/
theorem create_stands (inside : Cpuset → Nat → List Obj) (root : Option Obj) (h : Stands g f) (id : Text) :
    (∀ new, Block.calls inside root (blockOf id f) = .ok new →
      ∃ g', g.create inside root id = .ok (⟨new, f.display⟩, g') ∧ Stands g' .reset) ∧
    (∀ e, Block.calls inside root (blockOf id f) = .error e → ∃ e', g.create inside root id = .error e') := by
  have hplugin : (match g.reductionPluginName, g.reductionCode with
      | .null, .null => Ptr.null
      | .null, _ => .live id
      | p, _ => p) = .ofOption (blockOf id f).fields.reductionPluginName := by
    rw [h.plugin, h.code]
    cases hp : f.reductionPluginName <;> cases hc : f.reductionCode <;> simp [blockOf, Ptr.ofOption, hp, hc]
  have hset := h.setPlugin (blockOf id f).fields.reductionPluginName
  have hread := read_stands hset
  obtain ⟨g', hg', hreset⟩ := reset_stands hset
  have hcreate : g.create inside root id = match Block.calls inside root (blockOf id f) with
      | .error _ => .error .nullDeref
      | .ok new => .ok (⟨new, f.display⟩, g') := by
    unfold Globals.create
    simp only [hplugin, bind, Except.bind, hread, hg']
    rfl
  rw [hcreate]
  refine ⟨fun new hnew => ?_, fun e he => ?_⟩
  · rw [hnew]
    exact ⟨g', rfl, hreset⟩
  · rw [he]
    exact ⟨_, rfl⟩

/-- The block makes the calls: its arrays can grow so far, and it finds its root. -/
def MakesCalls (inside : Cpuset → Nat → List Obj) (root : Option Obj) (b : Block) (c : BlockCalls) : Prop :=
  Sized b.fields ∧ Block.calls inside root b = .ok c.newHmonitor ∧ c.display = b.fields.display

def Creatable (inside : Cpuset → Nat → List Obj) (root : Option Obj) (b : Block) : Prop :=
  ∃ c, MakesCalls inside root b c

/-- An import so far made the calls of its blocks, and left the defaults. -/
def SimImport (inside : Cpuset → Nat → List Obj) (root : Option Obj) (r : ImportRun) (bs : List Block) : Prop :=
  (∀ calls g, r = .ok (calls, g) → List.Forall₂ (MakesCalls inside root) bs calls ∧ Stands g .reset) ∧
    ((∀ b ∈ bs, Creatable inside root b) → ∃ calls g, r = .ok (calls, g))

theorem SimImport.fields {r : ImportRun} {bs : List Block} (h : SimImport inside root r bs) :
    Sim (∀ b ∈ bs, Creatable inside root b) (r.map Prod.snd) .reset := by
  constructor
  · intro g hg
    obtain ⟨⟨calls, g⟩, rfl⟩ : ∃ a, r = .ok a := by
      cases r with
      | error e => cases hg
      | ok a => exact ⟨a, rfl⟩
    cases hg
    exact (h.1 calls g rfl).2
  · intro hbs _
    obtain ⟨calls, g, rfl⟩ := h.2 hbs
    exact ⟨g, rfl⟩

theorem fieldList_together (locationParse : Text → Option Nat) (h : Sim P r .reset) (ts : List Token) :
    Together P (fieldListG locationParse r ts) (fieldList locationParse ts) :=
  sepBy_rel (fun _ _ ts h => field_together locationParse h ts) h

/-- What the end of a monitor makes of the run. -/
theorem monitor_sim {r : ImportRun} {r' : Run} {bs : List Block} (h : SimImport inside root r bs)
    (hr : Sim (∀ b ∈ bs, Creatable inside root b) r' f) (id : Text) : SimImport inside root (do
      let (calls, _) ← r
      let g ← r'
      let (new, g) ← g.create inside root id
      .ok (calls ++ [new], g)) (bs ++ [blockOf id f]) := by
  constructor
  · intro calls' g' hrun
    cases hr' : r with
    | error e =>
      rw [hr'] at hrun
      cases hrun
    | ok a =>
      obtain ⟨calls, g₀⟩ := a
      cases hg : r' with
      | error e =>
        rw [hr', hg] at hrun
        cases hrun
      | ok g =>
        obtain ⟨hcalls, -⟩ := h.1 calls g₀ hr'
        obtain ⟨hok, herr⟩ := create_stands inside root (hr.1 g hg) id
        rw [hr', hg] at hrun
        simp only [bind, Except.bind] at hrun
        cases hb : Block.calls inside root (blockOf id f) with
        | error e =>
          obtain ⟨e', he'⟩ := herr e hb
          rw [he'] at hrun
          cases hrun
        | ok new =>
          obtain ⟨g₁, hg₁, hreset⟩ := hok new hb
          rw [hg₁] at hrun
          cases hrun
          exact ⟨List.rel_append hcalls (.cons ⟨(hr.1 g hg).sized, hb, rfl⟩ .nil), hreset⟩
  · intro hall
    rw [List.forall_mem_append, List.forall_mem_singleton] at hall
    obtain ⟨hbs, ⟨new, display⟩, hsized, hnew, -⟩ := hall
    obtain ⟨calls, g₀, rfl⟩ := h.2 hbs
    obtain ⟨g, rfl⟩ := hr.2 hbs hsized
    obtain ⟨g₁, hg₁, -⟩ := (create_stands inside root (hr.1 g rfl) id).1 new hnew
    refine ⟨calls ++ [⟨new, f.display⟩], g₁, ?_⟩
    simp only [bind, Except.bind, hg₁]

theorem monitor_together {r : ImportRun} {bs : List Block} (h : SimImport inside root r bs) (ts : List Token) :
    Option.Rel (Aligned (SimImport inside root)) (monitorG inside root locationParse r ts)
      (monitor locationParse bs ts) := by
  unfold monitorG
  split
  · rename_i id ts'
    simp only [monitor]
    have hrel := fieldList_together locationParse h.fields ts'
    generalize fieldListG locationParse (r.map Prod.snd) ts' = o at hrel ⊢
    generalize fieldList locationParse ts' = o' at hrel ⊢
    cases hrel with
    | none => exact .none
    | @some a b hab =>
      obtain ⟨r', ts₁⟩ := a
      obtain ⟨f, ts₂⟩ := b
      obtain ⟨hsim, hts⟩ := hab
      cases hts
      by_cases hbrace : ∃ ts₃, ts₁ = .char '}' :: ts₃
      · obtain ⟨ts₃, rfl⟩ := hbrace
        exact .some ⟨monitor_sim h hsim id, rfl⟩
      · split
        · rename_i he
          cases he
          exact absurd ⟨_, rfl⟩ hbrace
        · split
          · rename_i he
            cases he
            exact absurd ⟨_, rfl⟩ hbrace
          · exact .none
  · rename_i hno
    rw [monitor.eq_2 _ _ _ hno]
    exact .none

end Create

end Hmon.Config
