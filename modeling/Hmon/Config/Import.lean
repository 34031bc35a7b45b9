import Hmon.Config.Blocks
import Hmon.Config.Location
import Hmon.Config.Plugins
import Hmon.Thread.Inventory

/-!
# An import in the running library (`hmon_import`, `monitor_create`)

* `Host` : what an import uses besides the library: hwloc, the plugins, `fopen`;
* `Pass` : one call of `new_hmonitor`, and what belongs to it; `importPasses` : those of the blocks of a configuration;
* `Passed` : what became of a pass; `importSys` : the passes one by one, between any steps of the threads;
* `Host.Gives` : the attributes that are asked for in a pass; `Host.Refuses` : why one makes no monitor; `Imported` : an
  inventory with the monitors of the passes;
* `ImportGood` : the invariant; `import_exact` : **in every interleaving the import of a text makes the calls of its
  blocks in their order, and the library has the monitors that they ask for in the allowed cpuset, all of them
  registered, and else what it had before**.
-/

namespace Hmon.Config
open Lib

/-! ## The passes of a configuration -/

/-- hwloc, the performance plugins, what the functions of the statistic plugins compute, and the streams of the output
files, by the number of the block. `plugin` is `none` for a plugin that is missing or lacks a function; one that is
loaded answers `none` for an object or events that it refuses. -/
structure Host (V : Type) where
  levels : Levels
  plugin : Text → Option (Obj → List Text → Option PerfPlugin)
  code : Function → Model V
  fopen : Nat → Text → Option Nat

def Host.output {V : Type} (host : Host V) (k : Nat) : Output → Option Nat
  | .none => none
  | .stdout => some 1
  | .stderr => some 2
  | .file path => host.fopen k path

/-- The bytes of a name. -/
def bytes (s : Text) : CString := s.map fun c => c.toNat.toUInt8

/-- One call of `new_hmonitor` in `monitor_create`: `model` is the function that it finds under the name of the model,
`looped` says that it stands in the loop over the objects. -/
structure Pass where
  args : NewArgs
  model : Option (Option Function)
  output : Option Nat
  display : Int
  looped : Bool
  deriving DecidableEq

/-- `m->display` is an `unsigned`. -/
def Pass.shown (p : Pass) : Nat := (p.display % 4294967296).toNat

def Pass.inside (p : Pass) (allowed : Cpuset) : Bool := p.args.location.any fun o => o.cpuset ⊆ allowed

/-- The calls for a block; `objs` are the objects at its depth. -/
def Block.passes (objs : List Obj) (ps : List StatPlugin) (output : Option Nat) (b : Block) : List Pass :=
  let pass (location : Option Obj) (looped : Bool) : Pass :=
    let args := b.newArgs location
    ⟨args, args.modelPlugin.map (lookupFunction ps), output, b.fields.display, looped⟩
  if b.fields.events.length = 0 then []
  else if 0 ≤ b.fields.locationIndex then [pass objs[b.fields.locationIndex.toNat]? false]
  else objs.map fun o => pass (some o) true

section Import
variable {V M : Type} (host : Host V)

/-- The calls for the blocks from the `k`-th on. Each block builds its reduction before its monitors. -/
def importPasses (inside : Nat → List Obj) : List StatPlugin → Nat → List Block → List Pass
  | _, _, [] => []
  | ps, k, b :: bs =>
    let ps := (monitorCreate (fun _ => []) ps b).1
    b.passes (inside b.fields.locationDepth) ps (host.output k b.fields.output) ++ importPasses inside ps (k + 1) bs

/-- `hmon_import_hmonitors` on a text: what the parser uses. -/
def Host.toImport (w : World V M) (text : Text) : Import where
  covering := objCoveringCpuset w.lib.topo
  inside set d := (host.levels.level d).filter fun o => o.cpuset ≠ ∅ ∧ o.cpuset ⊆ set
  locationParse := fieldDepth host.levels
  domain := w.lib.allowed
  text := text

/-- The calls for a text, `none` when it is no configuration or no object covers the allowed cpuset. -/
def Host.passes (w : World V M) (ps : List StatPlugin) (text : Text) : Option (List Pass) :=
  let i := host.toImport w text
  i.blocks.bind fun bs => (i.covering i.domain).map fun root => importPasses host (i.inside root.cpuset) ps 0 bs

/-- What a call hands to the plugins: `none` when the plugin is missing, which ends the program, and nothing when
`new_hmonitor` returns NULL before or the plugin refuses. -/
def Host.request (p : Pass) (raw : Nat → V) : Option (Option (Request V)) :=
  match p.args.location, p.args.perfPlugin with
  | some location, some name =>
    if p.args.window = 0 then some none
    else (host.plugin name).map fun accept => (accept location p.args.eventNames).map fun plugin =>
      ⟨bytes p.args.id, location, plugin, p.args.window, p.model.map (Option.map host.code), p.args.nSamples, p.output,
        raw⟩
  | _, _ => some none

/-! ## The import between the steps of the threads -/

inductive ImportStatus
  | running
  | exited
  | nullDeref
  | useAfterFree
  deriving DecidableEq

/-- What became of a pass: `new_hmonitor` returned NULL, or the monitor was registered, or it was refused and deleted. -/
inductive Passed (M : Type)
  | null
  | kept (m : M)
  | deleted (m : M)

/-- The monitor that is there. -/
def Passed.monitor : Passed M → Option M
  | .kept m => some m
  | .null | .deleted _ => none

/-- The library, the calls to come, the monitor that is built and not yet registered, and the calls that were made. -/
structure ImportState (V M : Type) where
  world : World V M
  left : List Pass
  built : Option M
  log : List (Pass × Passed M)
  status : ImportStatus

def ImportState.start (w : World V M) (passes : List Pass) : ImportState V M := ⟨w, passes, none, [], .running⟩

/-- `new` calls `new_hmonitor`, which allocates `m` if it succeeds; `register` registers the monitor, or deletes it if it
is refused: the plugin then answers `a`. -/
inductive ImportLabel (V M : Type)
  | lib (l : Label V M)
  | new (now : Int) (m : M) (raw : Nat → V)
  | register (a : Answer V)

/-- `new_hmonitor` returned NULL. The loop then writes to `m->output`. -/
def ImportState.null (s : ImportState V M) (p : Pass) (left : List Pass) : ImportState V M :=
  if p.looped then { s with status := .nullDeref } else { s with left := left, log := s.log ++ [(p, .null)] }

/-- `hmon_register_hmonitor` took the monitor. -/
def ImportState.kept (s : ImportState V M) (p : Pass) (left : List Pass) (m : M) (L : Registry V M) :
    ImportState V M where
  world := { s.world with lib := L }
  left := left
  built := none
  log := s.log ++ [(p, .kept m)]
  status := s.status

variable [DecidableEq M]

/-- What happens beside an import: nothing else creates or registers monitors or restricts the library, and nobody else
knows the monitor that is built. -/
def quiet (built : Option M) : Label V M → Bool
  | .create .. | .register .. | .restrict .. => false
  | .call _ op => built ≠ some op.target
  | _ => true

/-- `delete_hmonitor` by the main thread, for a monitor that is not registered: it is stopped and no more allocated. -/
def deleteHmonitor (w : World V M) (a : Answer V) (m : M) : World V M :=
  let o := hmonitorStop .main a (w.mon m)
  let w := w.put m o.mon o.events
  { w with lib := { w.lib with created := w.lib.created.filter (· ≠ m) } }

/-- `hmon_register_hmonitor` refused the monitor, which is deleted. The loop then writes to `m->output`. -/
def ImportState.deleted (s : ImportState V M) (p : Pass) (left : List Pass) (m : M) (a : Answer V) :
    ImportState V M where
  world := deleteHmonitor s.world a m
  left := left
  built := none
  log := s.log ++ [(p, .deleted m)]
  status := if p.looped then .useAfterFree else s.status

variable [Double V]

def importNext (s : ImportState V M) : ImportLabel V M → Option (ImportState V M)
  | .lib l =>
    if s.status = .running ∧ quiet s.built l then (hmonNext s.world l).map fun w => { s with world := w } else none
  | .new now m raw =>
    if s.status = .running ∧ s.built = none ∧ s.world.todo .main = [] then
      match s.left with
      | [] => none
      | p :: left =>
        match host.request p raw with
        | none => some { s with status := .exited }
        | some none => some (s.null p left)
        | some (some r) =>
          match s.world.lib.newHmonitor .main now r with
          | none => some (s.null p left)
          | some _ => (hmonNext s.world (.create .main now m r)).map fun w => { s with world := w, built := some m }
    else none
  | .register a =>
    match s.left, s.built with
    | p :: left, some m =>
      if s.world.todo .main = [] then
        (hmonRegisterHmonitor s.world.lib m p.shown).toOption.map fun (r, L) =>
          if r = -1 then s.deleted p left m a else s.kept p left m L
      else none
    | _, _ => none

def importSys : Lts (ImportState V M) (ImportLabel V M) := ⟨importNext host⟩

end Import

/-! ## What the passes do to an inventory -/

section Inventory
variable {V M : Type} {host : Host V}

/-- The attributes that are asked for in a pass. -/
structure Host.Gives (host : Host V) (p : Pass) (a : Attributes V M) : Prop where
  id : a.id = bytes p.args.id
  location : p.args.location = some a.location
  plugin : ∃ name accept plugin, p.args.perfPlugin = some name ∧ host.plugin name = some accept ∧
    accept a.location p.args.eventNames = some plugin ∧
    ∃ L : Registry V M, newEventset L a.location plugin = some (a.eventset, a.nEvents)
  window : a.window = p.args.window ∧ a.window ≠ 0
  model : a.model = p.model.join.map host.code
  samples : a.nSamples = if p.model.isSome then p.args.nSamples else a.nEvents
  output : a.output = p.output
  display : a.display = 0

/-- Why a pass makes no monitor: what every monitor needs is missing, or its plugin refuses the object or an event. -/
inductive Host.Refuses (M : Type) (host : Host V) (p : Pass) : Prop
  | missing : p.args.location = none ∨ p.args.perfPlugin = none ∨ p.args.window = 0 → Refuses M host p
  | events {location : Obj} {name : Text} {accept : Obj → List Text → Option PerfPlugin} :
      p.args.location = some location → p.args.perfPlugin = some name → host.plugin name = some accept →
      (∀ plugin, accept location p.args.eventNames = some plugin →
        ∃ L : Registry V M, newEventset L location plugin = none) → Refuses M host p

/-- The calls of a pass that is over. -/
inductive Made (host : Host V) (allowed : Cpuset) : Pass × Passed M → List (InventoryCall V M) → Prop
  | null {p : Pass} : p.looped = false → host.Refuses M p → Made host allowed (p, .null) []
  | kept {p : Pass} {m : M} {a : Attributes V M} : host.Gives p a → p.inside allowed = true →
      Made host allowed (p, .kept m) [.create m a, .register m p.shown]
  | deleted {p : Pass} {m : M} {a : Attributes V M} : host.Gives p a → p.inside allowed = false →
      Made host allowed (p, .deleted m) []

/-- The inventory `v'` has the monitors of the passes beside those of `v`. -/
structure Imported (host : Host V) (v v' : Inventory V M) (log : List (Pass × Passed M)) : Prop where
  kept : ∀ p m, (p, .kept m) ∈ log → p.inside v.allowed = true ∧ v.monitors m = none ∧
    ∃ a, host.Gives p a ∧ v'.monitors m = some { a with display := p.shown }
  deleted : ∀ p m, (p, .deleted m) ∈ log → p.inside v.allowed = false ∧ ∃ a : Attributes V M, host.Gives p a
  null : ∀ p, (p, .null) ∈ log → p.looped = false ∧ host.Refuses M p
  others : ∀ m, (∀ p, (p, .kept m) ∉ log) → v'.monitors m = v.monitors m
  registered : v'.registered = v.registered + (log.filterMap fun e => e.2.monitor : Multiset M)
  allowed : v'.allowed = v.allowed
  distinct : (log.filterMap fun e => e.2.monitor).Nodup

theorem Host.Gives.inside {p : Pass} {a : Attributes V M} (h : host.Gives p a) (allowed : Cpuset) :
    p.inside allowed = decide (a.location.cpuset ⊆ allowed) := by
  unfold Pass.inside
  rw [h.location]
  rfl

variable [DecidableEq M]

/-- The inventory with one more monitor, which is registered. -/
def addMonitor (v : Inventory V M) (m : M) (a : Attributes V M) (display : Nat) : Inventory V M where
  monitors := Function.update v.monitors m (some { a with display := display })
  registered := m ::ₘ v.registered
  allowed := v.allowed

theorem create_register {v v₁ v₂ : Inventory V M} {m : M} {a : Attributes V M} {display : Nat}
    (hc : v.next (.create m a) = some v₁) (hr : v₁.next (.register m display) = some v₂)
    (hin : a.location.cpuset ⊆ v.allowed) : v.monitors m = none ∧ v₂ = addMonitor v m a display := by
  simp only [Inventory.next] at hc
  cases hm : v.monitors m with
  | some b => rw [hm] at hc; cases hc
  | none =>
    rw [hm] at hc
    cases hc
    refine ⟨rfl, ?_⟩
    simp only [Inventory.next, Function.update_self, Option.map_some, Function.update_idem, if_pos hin] at hr
    exact (Option.some.inj hr).symm

/-- A monitor that is created and deleted again leaves nothing. -/
theorem create_delete {v v₁ v₂ : Inventory V M} {m : M} {a : Attributes V M} (hc : v.next (.create m a) = some v₁)
    (hm : v₂.monitors m = none) (hothers : ∀ y, y ≠ m → v₂.monitors y = v₁.monitors y)
    (hr : v₂.registered = v₁.registered) (ha : v₂.allowed = v₁.allowed) : v₂ = v := by
  simp only [Inventory.next] at hc
  cases hv : v.monitors m with
  | some b => rw [hv] at hc; cases hc
  | none =>
    rw [hv] at hc
    cases hc
    have hmonitors : v₂.monitors = v.monitors := funext fun y => by
      by_cases hy : y = m
      · rw [hy, hm, hv]
      · exact (hothers y hy).trans (Function.update_of_ne hy ..)
    calc v₂ = ⟨v₂.monitors, v₂.registered, v₂.allowed⟩ := rfl
      _ = v := by rw [hmonitors, hr, ha]

/-- A pass that keeps its monitor before others. -/
theorem Imported.cons_kept {v v' : Inventory V M} {log : List (Pass × Passed M)} {p : Pass} {m : M}
    {a : Attributes V M} (hg : host.Gives p a) (hin : p.inside v.allowed = true) (hm : v.monitors m = none)
    (h : Imported host (addMonitor v m a p.shown) v' log) : Imported host v v' ((p, .kept m) :: log) := by
  have hold : (addMonitor v m a p.shown).monitors m = some { a with display := p.shown } := Function.update_self ..
  have hnew : ∀ x, x ≠ m → (addMonitor v m a p.shown).monitors x = v.monitors x := fun x hx =>
    Function.update_of_ne hx ..
  -- the later passes create monitors that were not there
  have hlog : ∀ q, (q, .kept m) ∉ log := fun q hq => by
    rw [(h.kept q m hq).2.1] at hold
    cases hold
  refine ⟨fun q x hq => ?_, fun q x hq => ?_, fun q hq => ?_, fun x hx => ?_, h.registered.trans ?_, h.allowed, ?_⟩
  · rcases List.mem_cons.mp hq with hq | hq
    · cases hq
      exact ⟨hin, hm, a, hg, by rw [h.others m hlog, hold]⟩
    · obtain ⟨hq', hx, hb⟩ := h.kept q x hq
      have hne : x ≠ m := fun hxm => hlog q (hxm ▸ hq)
      exact ⟨hq', (hnew x hne).symm.trans hx, hb⟩
  · exact h.deleted q x ((List.mem_cons.mp hq).resolve_left fun hq => by cases hq)
  · exact h.null q ((List.mem_cons.mp hq).resolve_left fun hq => by cases hq)
  · have hne : x ≠ m := fun hxm => hx p (hxm ▸ List.mem_cons_self)
    rw [h.others x fun q hq => hx q (List.mem_cons_of_mem _ hq), hnew x hne]
  · show m ::ₘ v.registered + _ = v.registered + ((m :: log.filterMap fun e => e.2.monitor : List M) : Multiset M)
    rw [← Multiset.cons_coe, Multiset.cons_add, Multiset.add_cons]
  · show (m :: log.filterMap fun e => e.2.monitor).Nodup
    refine List.nodup_cons.mpr ⟨fun hmem => ?_, h.distinct⟩
    obtain ⟨⟨q, x⟩, hq, hx⟩ := List.mem_filterMap.mp hmem
    cases x with
    | kept y => cases hx; exact hlog q hq
    | null | deleted => cases hx

omit [DecidableEq M] in
/-- A pass that leaves nothing before others. -/
theorem Imported.cons_none {v v' : Inventory V M} {log : List (Pass × Passed M)} {p : Pass} {x : Passed M}
    (hx : x.monitor = none) (hnull : x = .null → p.looped = false ∧ host.Refuses M p)
    (hdeleted : ∀ m, x = .deleted m → p.inside v.allowed = false ∧ ∃ a : Attributes V M, host.Gives p a)
    (h : Imported host v v' log) : Imported host v v' ((p, x) :: log) := by
  have hkept : ∀ {q m}, (q, .kept m) ∈ (p, x) :: log → (q, .kept m) ∈ log := fun hq =>
    (List.mem_cons.mp hq).resolve_left fun hq => by cases hq; cases hx
  have hfilter : ((p, x) :: log).filterMap (fun e => e.2.monitor) = log.filterMap fun e => e.2.monitor :=
    List.filterMap_cons_none hx
  refine ⟨fun q m hq => h.kept q m (hkept hq), fun q m hq => ?_, fun q hq => ?_,
    fun m hm => h.others m fun q hq => hm q (List.mem_cons_of_mem _ hq), hfilter ▸ h.registered, h.allowed,
    hfilter ▸ h.distinct⟩
  · rcases List.mem_cons.mp hq with hq | hq
    · cases hq
      exact hdeleted m rfl
    · exact h.deleted q m hq
  · rcases List.mem_cons.mp hq with hq | hq
    · cases hq
      exact hnull rfl
    · exact h.null q hq

/-- **The passes that are over make an inventory with their monitors.** -/
theorem imported_of_made {v₀ : Inventory V M} {log : List (Pass × Passed M)}
    {callss : List (List (InventoryCall V M))} (h : List.Forall₂ (Made host v₀.allowed) log callss)
    {v v' : Inventory V M} (ha : v.allowed = v₀.allowed) (he : inventorySys.exec v callss.flatten = some v') :
    Imported host v v' log := by
  induction h generalizing v with
  | nil =>
    rw [List.flatten_nil, Lts.exec_nil, Option.some.injEq] at he
    subst he
    exact ⟨fun _ _ h => absurd h List.not_mem_nil, fun _ _ h => absurd h List.not_mem_nil,
      fun _ h => absurd h List.not_mem_nil, fun _ _ => rfl, (add_zero _).symm, rfl, List.nodup_nil⟩
  | cons hmade _ ih =>
    rw [List.flatten_cons, Lts.exec_append] at he
    obtain ⟨v₂, hcalls, hrest⟩ := Option.bind_eq_some_iff.mp he
    cases hmade with
    | null hp hrefuses =>
      rw [Lts.exec_nil, Option.some.injEq] at hcalls
      subst hcalls
      exact (ih ha hrest).cons_none rfl (fun _ => ⟨hp, hrefuses⟩) fun _ h => by cases h
    | deleted hg hout =>
      rw [Lts.exec_nil, Option.some.injEq] at hcalls
      subst hcalls
      exact (ih ha hrest).cons_none rfl (fun h => by cases h) fun _ _ => ⟨ha ▸ hout, _, hg⟩
    | @kept p m a hg hin =>
      obtain ⟨v₁, hcreate, hcalls⟩ := Lts.exec_cons_eq_some.mp hcalls
      obtain ⟨v₂', hregister, hcalls⟩ := Lts.exec_cons_eq_some.mp hcalls
      rw [Lts.exec_nil, Option.some.injEq] at hcalls
      subst hcalls
      rw [← ha] at hin
      have hsub : a.location.cpuset ⊆ v.allowed := of_decide_eq_true ((hg.inside _).symm.trans hin)
      obtain ⟨hm, rfl⟩ := create_register hcreate hregister hsub
      exact .cons_kept hg hin hm (ih ha hrest)

end Inventory

/-! ## A step of an import -/

section Runs
variable {V M : Type} {host : Host V}

/-- The library has the inventory `v`, or a monitor more, which the next pass asks for and nobody registered. -/
inductive Building [DecidableEq M] (host : Host V) (v : Inventory V M) (s : ImportState V M) : Prop
  | idle : s.built = none → s.world.inventory = v → Building host v s
  | built {p : Pass} {left : List Pass} {m : M} {a : Attributes V M} : s.built = some m → s.status = .running →
      s.left = p :: left → host.Gives p a → v.next (.create m a) = some s.world.inventory →
      m ∉ s.world.lib.registered → Building host v s

/-- Why an import ended the program. One that runs has kept what its loops built. -/
def ImportState.Explained (host : Host V) (allowed : Cpuset) (s : ImportState V M) : Prop :=
  match s.status with
  | .running => ∀ p m, (p, .deleted m) ∈ s.log → p.looped = false
  | .exited => ∃ p left name, s.left = p :: left ∧ p.args.perfPlugin = some name ∧ host.plugin name = none
  | .nullDeref => ∃ p left, s.left = p :: left ∧ p.looped = true ∧ host.Refuses M p
  | .useAfterFree => ∃ p m log, s.log = log ++ [(p, .deleted m)] ∧ p.looped = true ∧ p.inside allowed = false

theorem request_none {p : Pass} {raw : Nat → V} (h : host.request p raw = none) :
    ∃ name, p.args.perfPlugin = some name ∧ host.plugin name = none := by
  unfold Host.request at h
  split at h
  · rename_i name _ hname
    split_ifs at h
    exact ⟨name, hname, Option.map_eq_none_iff.mp h⟩
  · cases h

theorem gives_of_request {p : Pass} {raw : Nat → V} {r : Request V} {L : Registry V M} {a : Attributes V M}
    (h : host.request p raw = some (some r)) (ha : r.attributes L = some a) : host.Gives p a := by
  unfold Host.request at h
  split at h
  · rename_i location name hlocation hname
    split_ifs at h with hw
    · cases h
    · obtain ⟨accept, haccept, h⟩ := Option.map_eq_some_iff.mp h
      obtain ⟨plugin, hplugin, rfl⟩ := Option.map_eq_some_iff.mp h
      unfold Request.attributes at ha
      rw [if_neg hw] at ha
      obtain ⟨⟨eventset, added⟩, hev, rfl⟩ := Option.map_eq_some_iff.mp ha
      refine ⟨rfl, hlocation, ⟨name, accept, plugin, hname, haccept, hplugin, L, hev⟩, ⟨rfl, hw⟩, ?_, ?_, rfl, rfl⟩
      · simp only
        rcases p.model with _ | _ | f <;> rfl
      · simp only [Option.isSome_map]
  · cases h

theorem refuses_of_request {p : Pass} {raw : Nat → V} (h : host.request p raw = some none) : host.Refuses M p := by
  unfold Host.request at h
  split at h
  · rename_i location name hlocation hname
    split_ifs at h with hw
    · exact .missing (Or.inr (Or.inr hw))
    · obtain ⟨accept, haccept, h⟩ := Option.map_eq_some_iff.mp h
      refine .events hlocation hname haccept fun plugin hplugin => ?_
      rw [hplugin] at h
      cases h
  · rename_i hnot
    cases hlocation : p.args.location with
    | none => exact .missing (Or.inl hlocation)
    | some location =>
      cases hname : p.args.perfPlugin with
      | none => exact .missing (Or.inr (Or.inl hname))
      | some name => exact absurd hname (hnot location name hlocation)

theorem refuses_of_new [Double V] {p : Pass} {raw : Nat → V} {r : Request V} {L : Registry V M} {t : Thread} {now : Int}
    (h : host.request p raw = some (some r)) (hn : L.newHmonitor t now r = none) : host.Refuses M p := by
  unfold Host.request at h
  split at h
  · rename_i location name hlocation hname
    split_ifs at h with hw
    · cases h
    · obtain ⟨accept, haccept, h⟩ := Option.map_eq_some_iff.mp h
      obtain ⟨plugin, hplugin, rfl⟩ := Option.map_eq_some_iff.mp h
      refine .events hlocation hname haccept fun plugin' hplugin' => ⟨L, ?_⟩
      cases hplugin.symm.trans hplugin'
      unfold Registry.newHmonitor at hn
      cases hev : newEventset L location plugin with
      | none => rfl
      | some e =>
        rw [hev] at hn
        exact absurd hn (by simp [Hmon.newHmonitor, hw])
  · cases h

/-- The next pass is over. -/
theorem order_over {log : List (Pass × Passed M)} {p : Pass} {left passes : List Pass} {x : Passed M}
    (h : log.map Prod.fst ++ p :: left = passes) : (log ++ [(p, x)]).map Prod.fst ++ left = passes := by
  rw [← h, List.map_append, List.append_assoc]
  rfl

variable [DecidableEq M]

/-- A monitor that was just created. -/
theorem created_next {v : Inventory V M} {w : World V M} {m : M} {a : Attributes V M}
    (h : v.next (.create m a) = some w.inventory) :
    m ∈ w.lib.created ∧ (w.mon m).attributes = a ∧ w.lib.allowed = v.allowed := by
  simp only [Inventory.next] at h
  split at h
  · have hinv := (Option.some.inj h).symm
    have hm : w.inventory.monitors m = some a := by
      rw [hinv]
      exact Function.update_self ..
    have hallowed : w.inventory.allowed = v.allowed := by rw [hinv]
    obtain ⟨hc, ha⟩ := Option.ite_none_right_eq_some.mp hm
    exact ⟨hc, Option.some.inj ha, hallowed⟩
  · cases h

theorem seen_quiet {w : World V M} {built : Option M} {l : Label V M} (h : quiet built l = true) : seen w l = none := by
  cases l with
  | create | register | restrict => cases h
  | _ => rfl

/-- The inventory without a monitor that was just created. -/
theorem inventory_delete {v : Inventory V M} {w : World V M} {m : M} {a : Attributes V M}
    (h : v.next (.create m a) = some w.inventory) (answer : Answer V) : (deleteHmonitor w answer m).inventory = v := by
  have hput : (w.put m (hmonitorStop .main answer (w.mon m)).mon (hmonitorStop .main answer (w.mon m)).events).inventory =
      w.inventory := World.inventory_put (hmonitorStop_onlyControl _ _ _).attributes _
  have hcreated : ∀ y, y ∈ (deleteHmonitor w answer m).lib.created ↔ y ∈ w.lib.created ∧ y ≠ m := fun y => by
    show y ∈ w.lib.created.filter (· ≠ m) ↔ _
    rw [List.mem_filter, decide_eq_true_eq]
  refine create_delete h (if_neg fun hm => ((hcreated m).mp hm).2 rfl) (fun y hy => ?_) rfl rfl
  rw [← hput]
  show (if y ∈ (deleteHmonitor w answer m).lib.created then _ else _) = if y ∈ w.lib.created then _ else _
  simp only [hcreated, and_iff_left hy]
  rfl

/-- A monitor that is not registered can be deleted. -/
theorem proper_delete {w : World V M} (h : w.Proper) {m : M} (hm : m ∉ w.lib.registered) (answer : Answer V) :
    (deleteHmonitor w answer m).Proper := by
  have hput := h.put (hmonitorStop_shape .main answer (w.mon m)) (hmonitorStop .main answer (w.mon m)).events
  refine ⟨⟨hput.sound.fits, hput.sound.fitsAt, hput.sound.mem⟩, fun y hy => List.mem_filter.mpr ⟨h.created y hy, ?_⟩,
    hput.outside⟩
  exact decide_eq_true fun he => hm (he ▸ hy)

/-- What holds of an import of the passes into the inventory `v₀`. -/
structure ImportGood (host : Host V) (v₀ : Inventory V M) (passes : List Pass) (s : ImportState V M) : Prop where
  proper : s.world.Proper
  order : s.log.map Prod.fst ++ s.left = passes
  calls : ∃ callss v, List.Forall₂ (Made host v₀.allowed) s.log callss ∧
    inventorySys.exec v₀ callss.flatten = some v ∧ Building host v s
  explained : s.Explained host v₀.allowed

variable {v₀ : Inventory V M} {passes : List Pass} {s s' : ImportState V M}

theorem ImportGood.start {w : World V M} (hp : w.Proper) (passes : List Pass) :
    ImportGood host w.inventory passes (.start w passes) :=
  ⟨hp, rfl, ⟨[], w.inventory, .nil, rfl, .idle rfl rfl⟩, fun _ _ h => absurd h List.not_mem_nil⟩

theorem ImportGood.allowed (h : ImportGood host v₀ passes s) : s.world.lib.allowed = v₀.allowed := by
  obtain ⟨callss, v, hmade, hexec, hbuilding⟩ := h.calls
  have hv : v.allowed = v₀.allowed := (imported_of_made hmade rfl hexec).allowed
  cases hbuilding with
  | idle _ hinv => exact (congrArg Inventory.allowed hinv).trans hv
  | built _ _ _ _ hcreate => exact (created_next hcreate).2.2.trans hv

/-- One more pass is over, which made these calls. -/
theorem ImportGood.over {log : List (Pass × Passed M)} {callss : List (List (InventoryCall V M))}
    {v v' : Inventory V M} (hmade : List.Forall₂ (Made host v₀.allowed) log callss)
    (hexec : inventorySys.exec v₀ callss.flatten = some v) {e : Pass × Passed M} {calls : List (InventoryCall V M)}
    (he : Made host v₀.allowed e calls) (hcalls : inventorySys.exec v calls = some v') :
    ∃ callss, List.Forall₂ (Made host v₀.allowed) (log ++ [e]) callss ∧
      inventorySys.exec v₀ callss.flatten = some v' := by
  refine ⟨callss ++ [calls], List.rel_append hmade (.cons he .nil), ?_⟩
  rw [List.flatten_append, Lts.exec_append, hexec, List.flatten_singleton]
  exact hcalls

variable [Double V]

/-- A monitor that was not allocated is not registered. -/
theorem created_unregistered {w w' : World V M} (hp : w.Proper) {t : Thread} {now : Int} {m : M}
    {r : Request V} (hn : hmonNext w (.create t now m r) = some w') : m ∉ w'.lib.registered := by
  simp only [hmonNext] at hn
  split_ifs at hn with hc
  obtain ⟨h, -, rfl⟩ := Option.map_eq_some_iff.mp hn
  exact fun hr => hc.1 (hp.created m hr)

/-- The threads go on. -/
theorem ImportGood.lib (h : ImportGood host v₀ passes s) {l : Label V M} (hl : quiet s.built l = true) {w : World V M}
    (hn : hmonNext s.world l = some w) : ImportGood host v₀ passes { s with world := w } := by
  have hstep := inventory_step h.proper hn
  rw [seen_quiet hl] at hstep
  have hinv : s.world.inventory = w.inventory := Option.some.inj hstep
  have hregistered : ∀ m, m ∈ w.lib.registered ↔ m ∈ s.world.lib.registered := fun m => by
    have hr : (w.lib.registered : Multiset M) = s.world.lib.registered := congrArg Inventory.registered hinv.symm
    rw [← Multiset.mem_coe, hr, Multiset.mem_coe]
  refine ⟨h.proper.next hn, h.order, ?_, h.explained⟩
  obtain ⟨callss, v, hmade, hexec, hbuilding⟩ := h.calls
  refine ⟨callss, v, hmade, hexec, ?_⟩
  cases hbuilding with
  | idle hb hv => exact .idle hb (hinv.symm.trans hv)
  | built hb hs hleft hg hcreate hm =>
    exact .built hb hs hleft hg (hinv ▸ hcreate) fun hr => hm ((hregistered _).mp hr)

omit [DecidableEq M] [Double V] in
/-- What the log of an import that runs says of the deleted monitors, with one entry more. -/
theorem deleted_append {log : List (Pass × Passed M)} {p : Pass} {x : Passed M}
    (h : ∀ q m, (q, .deleted m) ∈ log → q.looped = false) (hx : ∀ m, x = .deleted m → p.looped = false) :
    ∀ q m, (q, .deleted m) ∈ log ++ [(p, x)] → q.looped = false := by
  intro q m hq
  rcases List.mem_append.mp hq with hq | hq
  · exact h q m hq
  · cases List.mem_singleton.mp hq
    exact hx m rfl

omit [Double V] in
/-- `new_hmonitor` returned NULL. -/
theorem ImportGood.null (h : ImportGood host v₀ passes s) (hs : s.status = .running) (hb : s.built = none) {p : Pass}
    {left : List Pass} (hleft : s.left = p :: left) (hrefuses : host.Refuses M p) :
    ImportGood host v₀ passes (s.null p left) := by
  obtain ⟨callss, v, hmade, hexec, hbuilding⟩ := h.calls
  have hinv : s.world.inventory = v := by
    cases hbuilding with
    | idle _ hinv => exact hinv
    | built hb' => rw [hb] at hb'; cases hb'
  unfold ImportState.null
  split_ifs with hp
  · exact ⟨h.proper, h.order, ⟨callss, v, hmade, hexec, .idle hb hinv⟩, ⟨p, left, hleft, hp, hrefuses⟩⟩
  · have hexplained := h.explained
    obtain ⟨callss', hmade', hexec'⟩ :=
      ImportGood.over hmade hexec (.null (Bool.eq_false_iff.mpr hp) hrefuses) (Lts.exec_nil ..)
    refine ⟨h.proper, order_over (hleft ▸ h.order), ⟨callss', _, hmade', hexec', .idle hb hinv⟩, ?_⟩
    simp only [ImportState.Explained, hs] at hexplained ⊢
    exact deleted_append hexplained fun _ hx => by cases hx

/-- A call of `new_hmonitor`. -/
theorem ImportGood.new (h : ImportGood host v₀ passes s) {now : Int} {m : M} {raw : Nat → V}
    (hn : importNext host s (.new now m raw) = some s') : ImportGood host v₀ passes s' := by
  simp only [importNext] at hn
  split_ifs at hn with hc
  obtain ⟨hs, hb, -⟩ := hc
  split at hn
  · cases hn
  · rename_i p left hleft
    split at hn
    · rename_i hrequest
      cases hn
      obtain ⟨name, hname, hplugin⟩ := request_none hrequest
      obtain ⟨callss, v, hmade, hexec, hbuilding⟩ := h.calls
      refine ⟨h.proper, h.order, ⟨callss, v, hmade, hexec, ?_⟩, ⟨p, left, name, hleft, hname, hplugin⟩⟩
      cases hbuilding with
      | idle hb hinv => exact .idle hb hinv
      | built hb' => rw [hb] at hb'; cases hb'
    · rename_i hrequest
      cases hn
      exact h.null hs hb hleft (refuses_of_request hrequest)
    · rename_i r hrequest
      split at hn
      · rename_i hnull
        cases hn
        exact h.null hs hb hleft (refuses_of_new hrequest hnull)
      · rename_i x hx
        obtain ⟨w, hw, rfl⟩ := Option.map_eq_some_iff.mp hn
        have ha := newHmonitor_attributes hx
        have hstep := inventory_step h.proper hw
        rw [seen, ha] at hstep
        obtain ⟨callss, v, hmade, hexec, hbuilding⟩ := h.calls
        refine ⟨h.proper.next hw, h.order, ⟨callss, v, hmade, hexec, ?_⟩, ?_⟩
        · cases hbuilding with
          | idle _ hinv =>
            obtain ⟨v₁, hcreate, hv₁⟩ := Lts.exec_cons_eq_some.mp hstep
            cases hv₁
            exact .built rfl hs hleft (gives_of_request hrequest ha) (hinv ▸ hcreate)
              (created_unregistered h.proper hw)
          | built hb' => rw [hb] at hb'; cases hb'
        · have hexplained := h.explained
          simp only [ImportState.Explained, hs] at hexplained ⊢
          exact hexplained

section Registration
variable {callss : List (List (InventoryCall V M))} {v : Inventory V M} {p : Pass} {left : List Pass} {m : M}
  {a : Attributes V M} (h : ImportGood host v₀ passes s) (hs : s.status = .running) (hleft : s.left = p :: left)
  (hmade : List.Forall₂ (Made host v₀.allowed) s.log callss) (hexec : inventorySys.exec v₀ callss.flatten = some v)
  (hg : host.Gives p a) (hcreate : v.next (.create m a) = some s.world.inventory)
include h hs hleft hmade hexec hg hcreate

/-- The monitor that was built is registered. -/
theorem ImportGood.kept (hin : p.inside v₀.allowed = true) {L : Registry V M}
    (hr : hmonRegisterHmonitor s.world.lib m p.shown = .ok (0, L)) : ImportGood host v₀ passes (s.kept p left m L) := by
  have hm : m ∈ s.world.lib.created := (created_next hcreate).1
  have hnext : hmonNext s.world (.register m p.shown) = some { s.world with lib := L } := by
    simp only [hmonNext, if_pos hm, hr]
    rfl
  have hcalls : inventorySys.exec v [.create m a, .register m p.shown] =
      some (World.inventory { s.world with lib := L }) := by
    rw [Lts.exec_cons_eq_some]
    refine ⟨_, hcreate, ?_⟩
    rw [Lts.exec_cons_eq_some]
    exact ⟨_, inventory_register h.proper.sound hm hr, rfl⟩
  obtain ⟨callss', hmade', hexec'⟩ := ImportGood.over hmade hexec (.kept hg hin) hcalls
  refine ⟨h.proper.next hnext, order_over (hleft ▸ h.order), ⟨callss', _, hmade', hexec', .idle rfl rfl⟩, ?_⟩
  have hexplained := h.explained
  simp only [ImportState.Explained, hs] at hexplained
  simp only [ImportState.Explained, ImportState.kept, hs]
  exact deleted_append hexplained fun _ hx => by cases hx

omit [Double V] in
/-- The monitor that was built is outside of the allowed cpuset. -/
theorem ImportGood.deleted (hout : p.inside v₀.allowed = false) (hregistered : m ∉ s.world.lib.registered)
    (answer : Answer V) : ImportGood host v₀ passes (s.deleted p left m answer) := by
  obtain ⟨callss', hmade', hexec'⟩ := ImportGood.over hmade hexec (.deleted (m := m) hg hout) (Lts.exec_nil ..)
  refine ⟨proper_delete h.proper hregistered answer, order_over (hleft ▸ h.order),
    ⟨callss', _, hmade', hexec', .idle rfl (inventory_delete hcreate answer)⟩, ?_⟩
  by_cases hloop : p.looped = true
  · simp only [ImportState.Explained, ImportState.deleted, if_pos hloop]
    exact ⟨p, m, s.log, rfl, hloop, hout⟩
  · have hexplained := h.explained
    simp only [ImportState.Explained, hs] at hexplained
    simp only [ImportState.Explained, ImportState.deleted, if_neg hloop, hs]
    exact deleted_append hexplained fun _ _ => Bool.eq_false_iff.mpr hloop

end Registration

/-- The registration of the monitor that was built. -/
theorem ImportGood.register (h : ImportGood host v₀ passes s) {answer : Answer V}
    (hn : importNext host s (.register answer) = some s') : ImportGood host v₀ passes s' := by
  simp only [importNext] at hn
  split at hn
  · rename_i p left m hleft hb
    split_ifs at hn
    cases hr : hmonRegisterHmonitor s.world.lib m p.shown with
    | error f => rw [hr] at hn; cases hn
    | ok res =>
      obtain ⟨r, L⟩ := res
      rw [hr] at hn
      cases hn
      obtain ⟨callss, v, hmade, hexec, hbuilding⟩ := h.calls
      cases hbuilding with
      | idle hb' => rw [hb] at hb'; cases hb'
      | @built p' left' m' a hb' hs hleft' hg hcreate hregistered =>
        cases hb.symm.trans hb'
        cases hleft.symm.trans hleft'
        have hanswer : r = registerAnswer v₀.allowed a.location := by
          rw [register_answer hr, h.allowed, ← (created_next hcreate).2.1]
          rfl
        have hinside := hg.inside v₀.allowed
        by_cases hin : a.location.cpuset ⊆ v₀.allowed
        · rw [decide_eq_true hin] at hinside
          rw [registerAnswer_inside hin] at hanswer
          subst hanswer
          exact h.kept hs hleft hmade hexec hg hcreate hinside hr
        · rw [decide_eq_false hin] at hinside
          rw [registerAnswer_outside hin] at hanswer
          subst hanswer
          exact h.deleted hs hleft hmade hexec hg hcreate hinside hregistered answer
  · cases hn

theorem ImportGood.next (h : ImportGood host v₀ passes s) {l : ImportLabel V M} (hn : importNext host s l = some s') :
    ImportGood host v₀ passes s' := by
  cases l with
  | lib l =>
    simp only [importNext] at hn
    split_ifs at hn with hc
    obtain ⟨w, hw, rfl⟩ := Option.map_eq_some_iff.mp hn
    exact h.lib hc.2 hw
  | new now m raw => exact h.new hn
  | register answer => exact h.register hn

/-! ## The whole import -/

/-- The state of an import of the passes that began with the library `w`. -/
structure ImportExact (host : Host V) (w : World V M) (passes : List Pass) (s : ImportState V M) : Prop where
  order : s.log.map Prod.fst ++ s.left = passes
  idle : s.built = none → Imported host w.inventory s.world.inventory s.log
  building : ∀ m, s.built = some m → ∃ v p left a, Imported host w.inventory v s.log ∧ s.left = p :: left ∧
    host.Gives p a ∧ v.next (.create m a) = some s.world.inventory
  explained : s.Explained host w.lib.allowed

omit [Double V] in
theorem ImportGood.exact {w : World V M} (h : ImportGood host w.inventory passes s) : ImportExact host w passes s := by
  obtain ⟨callss, v, hmade, hexec, hbuilding⟩ := h.calls
  have himported := imported_of_made hmade rfl hexec
  refine ⟨h.order, fun hb => ?_, fun m hb => ?_, h.explained⟩
  · cases hbuilding with
    | idle _ hinv => exact hinv ▸ himported
    | built hb' => rw [hb] at hb'; cases hb'
  · cases hbuilding with
    | idle hb' => rw [hb] at hb'; cases hb'
    | @built p left m' a hb' _ hleft hg hcreate =>
      cases hb.symm.trans hb'
      exact ⟨v, p, left, a, himported, hleft, hg, hcreate⟩

omit [DecidableEq M] [Double V] in
/-- The passes of blocks are their calls. -/
theorem importPasses_args {inside : Cpuset → Nat → List Obj} {root : Obj} {bs : List Block} {calls : List BlockCalls}
    (h : List.Forall₂ (MakesCalls inside (some root)) bs calls) (ps : List StatPlugin) (k : Nat) :
    (importPasses host (inside root.cpuset) ps k bs).map (fun p => (p.args, p.display)) =
      calls.flatMap fun c => c.newHmonitor.map fun args => (args, c.display) := by
  induction h generalizing ps k with
  | nil => rfl
  | @cons b c bs calls hc _ ih =>
    obtain ⟨-, hnew, hdisplay⟩ := hc
    have hblock : ∀ qs output, (b.passes (inside root.cpuset b.fields.locationDepth) qs output).map
        (fun p => (p.args, p.display)) = c.newHmonitor.map fun args => (args, c.display) := by
      intro qs output
      unfold Block.calls at hnew
      unfold Block.passes
      rw [hdisplay]
      by_cases he : b.fields.events.length = 0
      · rw [if_pos he] at hnew
        rw [if_pos he, ← Except.ok.inj hnew]
        rfl
      · rw [if_neg he] at hnew
        rw [if_neg he]
        by_cases hi : 0 ≤ b.fields.locationIndex
        · simp only [if_pos hi, Except.ok.injEq] at hnew ⊢
          rw [← hnew]
          rfl
        · simp only [if_neg hi, Except.ok.injEq] at hnew ⊢
          rw [← hnew, List.map_map, List.map_map]
          rfl
    simp only [importPasses, List.map_append, hblock, ih, List.flatMap_cons]

/-- **In every interleaving the import of a text makes the calls of its blocks in their order; of the monitors that they
ask for the library then has those in the allowed cpuset, all of them registered, and else what it had before; the
others are deleted. An import ends the program only for a plugin that is missing, or in a loop whose monitor was not
built or is deleted.** -/
theorem import_exact {ok : World V M → Label V M → Prop} {w : World V M} (hr : hmonSys.Reach Fresh ok w)
    {ps : List StatPlugin} {text : Text} (hp : host.passes w ps text = some passes) {ls : List (ImportLabel V M)}
    (he : (importSys host).exec (.start w passes) ls = some s) :
    ImportExact host w passes s ∧ ∀ g, Ready g → ∀ calls g',
      hmonImport (host.toImport w text) g = some (.ok (calls, g')) →
      passes.map (fun p => (p.args, p.display)) =
        calls.flatMap fun c => c.newHmonitor.map fun args => (args, c.display) := by
  have hgood : ImportGood host w.inventory passes s :=
    Lts.exec_inv (I := ImportGood host w.inventory passes) (fun _ _ _ h hn => h.next hn)
      (.start (hmonSys_proper hr) passes) he
  refine ⟨hgood.exact, fun g hg calls g' hrun => ?_⟩
  obtain ⟨bs, hbs, hp⟩ := Option.bind_eq_some_iff.mp hp
  obtain ⟨root, hroot, rfl⟩ := Option.map_eq_some_iff.mp hp
  have hrel := hmonImport_together (host.toImport w text) hg
  rw [hbs, hrun] at hrel
  cases hrel with
  | some hsim =>
    have hcalls := (hsim.1 calls g' rfl).1
    rw [hroot] at hcalls
    exact importPasses_args hcalls ps 0

end Runs

/-! ## Three cores, of which the middle one is not allowed -/

/-- `hmonitor_eventset_add_named_event` of the fake plugin, which has one event. -/
def fakeEvents (events : List Text) : Option PerfPlugin :=
  if events.all (· = "FAKE".toList) then some (.leaf events.length) else none

def threeCores : Topo :=
  .node ⟨.other 0, 0, 0, {0, 1, 2}⟩ [] ((List.range 3).map fun i => .node (Topo.coreObj i) [] [])

def fakeHost : Host ℚ where
  levels.typeDepth name := if name = "Core".toList then .depth 1 else .unknown
  levels.level
    | 0 => [⟨.other 0, 0, 0, {0, 1, 2}⟩]
    | 1 => (List.range 3).map Topo.coreObj
    | _ => []
  plugin name := if name = "fake".toList then some fun _ => fakeEvents else none
  code _ _ _ _ _ _ _ := []
  fopen _ _ := none

def coreText (index : Char) : Text :=
  "m\x7bOBJ:=Core:".toList ++ [index] ++ ";PERF_LIB:=fake;EVSET:=FAKE;\x7d".toList

def threeWorld : World ℚ ℕ :=
  (hmonSys.exec (World.init threeCores coreMonitors) [.restrict {0, 2}]).get (by decide +kernel)

def threePasses : List Pass := (List.range 3).map fun i =>
  let args : NewArgs := ⟨"m".toList, some (Topo.coreObj i), ["FAKE".toList], 1, none, 0, some "fake".toList, none, .stdout⟩
  ⟨args, none, some 1, 0, false⟩

/-- The monitor of the second core is deleted, and that of the third gets its place; the thread of the first core goes
through its monitor between the calls. -/
def threeRun : List (ImportLabel ℚ ℕ) :=
  [.new 0 0 fun _ => 0, .register Demo.ok, .lib .update, .lib (.step (.core 0) Demo.ok), .new 0 1 fun _ => 0,
    .register Demo.ok, .lib (.step (.core 0) Demo.ok), .new 0 1 fun _ => 0, .register Demo.ok]

def threeEnd : ImportState ℚ ℕ :=
  ((importSys fakeHost).exec (.start threeWorld threePasses) threeRun).get (by decide +kernel)

/-- The second core is outside of the restriction. -/
theorem import_exact_three : threeEnd.left = [] ∧ threeEnd.status = .running ∧
    threeEnd.log.map (fun e => e.2.monitor) = [some 0, none, some 1] ∧ threeEnd.world.lib.registered = [0, 1] ∧
    ImportExact fakeHost threeWorld threePasses threeEnd := by
  have hrestrict : hmonSys.exec (World.init threeCores coreMonitors) [.restrict {0, 2}] = some threeWorld :=
    (Option.some_get _).symm
  have hworld : hmonSys.Reach Fresh Lts.always threeWorld := .of_exec (.init ⟨_, _, rfl⟩) hrestrict
  have hpasses : fakeHost.passes threeWorld [] (coreText '0' ++ coreText '1' ++ coreText '2') = some threePasses := by
    decide +kernel
  have hexec : (importSys fakeHost).exec (.start threeWorld threePasses) threeRun = some threeEnd :=
    (Option.some_get _).symm
  exact ⟨by decide +kernel, by decide +kernel, by decide +kernel, by decide +kernel,
    (import_exact hworld hpasses hexec).1⟩

end Hmon.Config
