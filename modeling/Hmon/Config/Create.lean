import Hmon.Config.Parser
import Hmon.Lib.Lifetimes
import Hmon.Registry

/-!
# The creation of the monitors of a block (`monitor_create`)

* `NewArgs`, `ImportEnv` : the arguments of `new_hmonitor`, and what `monitor_create` calls: hwloc and `new_hmonitor`;
* `CreateStep` : what happens to a monitor; `monitorSteps` : the steps of a block;
* `Block.calls` : the arguments of the calls of `new_hmonitor`;
* `create_orderly_iff` : **no missing or deleted monitor is touched exactly when the block has an index or no event, or
  every object gives a monitor that is registered**.
-/

namespace Hmon.Config
open Lib

/-- The arguments of `new_hmonitor`. -/
structure NewArgs where
  id : Text
  location : Option Obj
  eventNames : List Text
  window : Nat
  labels : Option (List Text)
  nSamples : Nat
  perfPlugin : Option Text
  modelPlugin : Option Text
  output : Output
  deriving DecidableEq

/-- What an import calls: `hwloc_get_obj_covering_cpuset`, the objects that the `inside_cpuset_by_depth` functions
enumerate, and `new_hmonitor` behind its first check. -/
structure ImportEnv (M : Type) where
  covering : Cpuset → Option Obj
  inside : Cpuset → Nat → List Obj
  newHmonitor : NewArgs → Option M

inductive CreateStep (M : Type)
  | new (args : NewArgs) (result : Option M)
  | register (m : M) (display : Int) (result : Int)
  | delete (m : M)
  | setOutput (m : Option M) (output : Output)

/-- The pointers that a step touches. -/
def CreateStep.touches {M : Type} : CreateStep M → List (Touch M)
  | new _ none => []
  | new _ (some m) => [.alloc m]
  | register m _ _ => [.use (some m)]
  | delete m => [.free m]
  | setOutput m _ => [.use m]

/-- The arguments for an object. Of a reduction in C the function has the name of the monitor. -/
def Block.newArgs (b : Block) (location : Option Obj) : NewArgs where
  id := b.id
  location := location
  eventNames := b.fields.events
  window := b.fields.window
  labels := if 0 < b.fields.reductions.length then some b.fields.reductions else none
  nSamples := b.fields.reductions.length
  perfPlugin := b.fields.perfPluginName
  modelPlugin := if b.fields.reductionCode.isSome then some b.id else b.fields.reductionPluginName
  output := b.fields.output

section Create
variable {M : Type} (env : ImportEnv M) (allowed : Cpuset) (b : Block)

/-- `new_hmonitor` -/
def ImportEnv.new (args : NewArgs) : Option M :=
  if args.window = 0 ∨ args.location = .none ∨ args.perfPlugin = .none then none else env.newHmonitor args

/-- What `hmon_register_hmonitor` returns for a monitor at a location. -/
def registerAnswer (location : Obj) : Int := if location.cpuset ⊆ allowed then 0 else -1

/-- `new_hmonitor`, and the registration or deletion of the monitor. -/
def insertMonitor (location : Option Obj) : List (CreateStep M) :=
  .new (b.newArgs location) (env.new (b.newArgs location)) ::
    match env.new (b.newArgs location), location with
    | some m, some o =>
      .register m b.fields.display (registerAnswer allowed o) ::
        if registerAnswer allowed o = -1 then [.delete m] else []
    | _, _ => []

/-- The loop over the objects. It ends where `m->output` is written with `m` NULL. -/
def loopSteps : List Obj → List (CreateStep M)
  | [] => []
  | o :: os =>
    insertMonitor env allowed b (some o) ++ .setOutput (env.new (b.newArgs (some o))) b.fields.output ::
      if (env.new (b.newArgs (some o))).isSome then loopSteps os else []

/-- `monitor_create` with its static `root`, which is NULL when no object covers the domain. -/
def monitorSteps (root : Option Obj) : Except Fault (List (CreateStep M)) :=
  if b.fields.events.length = 0 then .ok []
  else
    match root with
    | none => .error .nullDeref
    | some root =>
      let objs := env.inside root.cpuset b.fields.locationDepth
      if 0 ≤ b.fields.locationIndex then .ok (insertMonitor env allowed b objs[b.fields.locationIndex.toNat]?)
      else .ok (loopSteps env allowed b objs)

end Create

/-! ## The calls of `new_hmonitor` -/

/-- The arguments for the object with the index of the block, or for each object in turn. -/
def Block.calls (inside : Cpuset → Nat → List Obj) (root : Option Obj) (b : Block) : Except Fault (List NewArgs) :=
  if b.fields.events.length = 0 then .ok []
  else
    match root with
    | none => .error .nullDeref
    | some root =>
      let objs := inside root.cpuset b.fields.locationDepth
      if 0 ≤ b.fields.locationIndex then .ok [b.newArgs objs[b.fields.locationIndex.toNat]?]
      else .ok (objs.map fun o => b.newArgs (some o))

def CreateStep.newArgs {M : Type} : CreateStep M → Option NewArgs
  | new args _ => some args
  | _ => none

/-- The steps touch no NULL and no deleted monitor, and register every monitor built inside the allowed cpuset. -/
structure Orderly {M : Type} [DecidableEq M] (allowed : Cpuset) (steps : List (CreateStep M)) : Prop where
  safe : Safe [] (steps.flatMap CreateStep.touches)
  registers : ∀ args m o, .new args (some m) ∈ steps → args.location = some o → o.cpuset ⊆ allowed →
    ∃ display, .register m display 0 ∈ steps

section Proofs
variable {M : Type} {env : ImportEnv M} {allowed : Cpuset} {b : Block}

theorem registerAnswer_inside {o : Obj} (h : o.cpuset ⊆ allowed) : registerAnswer allowed o = 0 := if_pos h

theorem registerAnswer_outside {o : Obj} (h : ¬ o.cpuset ⊆ allowed) : registerAnswer allowed o = -1 := if_neg h

/-- The answer is that of the registration in the registry. -/
theorem register_answer {V : Type} [DecidableEq M] {L L' : Registry V M} {m : M} {display : Nat} {r : Int}
    (h : hmonRegisterHmonitor L m display = .ok (r, L')) : r = registerAnswer L.allowed (L.mon m).location := by
  unfold hmonRegisterHmonitor at h
  by_cases hin : (L.mon m).location.cpuset ⊆ L.allowed
  · rw [if_neg (not_not_intro hin)] at h
    simp only [bind, Except.bind] at h
    rw [registerAnswer_inside hin]
    split at h
    · cases h
    · split at h
      · cases h
      · split at h
        · cases h
        · cases h
          rfl
  · rw [if_pos hin] at h
    cases h
    exact (registerAnswer_outside hin).symm

/-- The steps for one object that gives no monitor, a monitor inside the allowed cpuset, or one outside. -/
theorem insertMonitor_none {location : Option Obj} (h : env.new (b.newArgs location) = none) :
    insertMonitor env allowed b location = [.new (b.newArgs location) none] := by
  unfold insertMonitor
  rw [h]

theorem insertMonitor_inside {o : Obj} {m : M} (h : env.new (b.newArgs (some o)) = some m) (hin : o.cpuset ⊆ allowed) :
    insertMonitor env allowed b (some o) =
      [.new (b.newArgs (some o)) (some m), .register m b.fields.display 0] := by
  unfold insertMonitor
  rw [h]
  simp only [registerAnswer_inside hin]
  rfl

theorem insertMonitor_outside {o : Obj} {m : M} (h : env.new (b.newArgs (some o)) = some m)
    (hin : ¬ o.cpuset ⊆ allowed) : insertMonitor env allowed b (some o) =
      [.new (b.newArgs (some o)) (some m), .register m b.fields.display (-1), .delete m] := by
  unfold insertMonitor
  rw [h]
  simp only [registerAnswer_outside hin]
  rfl

/-- A monitor needs an object. -/
theorem new_location {location : Option Obj} {m : M} (h : env.new (b.newArgs location) = some m) :
    ∃ o, location = some o := by
  cases location with
  | some o => exact ⟨o, rfl⟩
  | none =>
    have hnone : (b.newArgs none).location = none := rfl
    unfold ImportEnv.new at h
    rw [if_pos (Or.inr (Or.inl hnone))] at h
    cases h

theorem insertMonitor_newArgs (location : Option Obj) :
    (insertMonitor env allowed b location).filterMap CreateStep.newArgs = [b.newArgs location] := by
  cases hn : env.new (b.newArgs location) with
  | none => rw [insertMonitor_none hn]; rfl
  | some m =>
    obtain ⟨o, rfl⟩ := new_location hn
    by_cases hin : o.cpuset ⊆ allowed
    · rw [insertMonitor_inside hn hin]; rfl
    · rw [insertMonitor_outside hn hin]; rfl

theorem loopSteps_newArgs (os : List Obj) :
    (loopSteps env allowed b os).filterMap CreateStep.newArgs <+: os.map fun o => b.newArgs (some o) := by
  induction os with
  | nil => exact List.prefix_rfl
  | cons o os ih =>
    unfold loopSteps
    rw [List.filterMap_append, insertMonitor_newArgs, List.filterMap_cons_none rfl, List.map_cons,
      List.singleton_append, List.cons_prefix_cons]
    refine ⟨rfl, ?_⟩
    split_ifs
    · exact ih
    · exact List.nil_prefix

/-- The calls of `new_hmonitor` are those of the block, unless a NULL monitor ends them. -/
theorem monitorSteps_newArgs {root : Option Obj} {steps : List (CreateStep M)}
    (h : monitorSteps env allowed b root = .ok steps) :
    ∃ calls, b.calls env.inside root = .ok calls ∧ steps.filterMap CreateStep.newArgs <+: calls := by
  unfold monitorSteps at h
  unfold Block.calls
  by_cases he : b.fields.events.length = 0
  · rw [if_pos he] at h ⊢
    cases h
    exact ⟨[], rfl, List.prefix_rfl⟩
  · rw [if_neg he] at h ⊢
    cases root with
    | none => cases h
    | some root =>
      simp only at h ⊢
      by_cases hi : 0 ≤ b.fields.locationIndex
      · rw [if_pos hi] at h ⊢
        cases h
        exact ⟨_, rfl, (insertMonitor_newArgs _).symm ▸ List.prefix_rfl⟩
      · rw [if_neg hi] at h ⊢
        cases h
        exact ⟨_, rfl, loopSteps_newArgs _⟩

/-- A monitor that is built inside the allowed cpuset is registered. -/
theorem register_of_new {o : Obj} {m : M} {args : NewArgs} {location : Option Obj}
    (h : .new args (some m) ∈ insertMonitor env allowed b location) (ho : args.location = some o)
    (hin : o.cpuset ⊆ allowed) : .register m b.fields.display 0 ∈ insertMonitor env allowed b location := by
  cases hn : env.new (b.newArgs location) with
  | none =>
    rw [insertMonitor_none hn] at h
    cases List.mem_singleton.mp h
  | some m' =>
    obtain ⟨o', rfl⟩ := new_location hn
    by_cases hin' : o'.cpuset ⊆ allowed
    · rw [insertMonitor_inside hn hin'] at h ⊢
      simp only [List.mem_cons, CreateStep.new.injEq, Option.some.injEq, reduceCtorEq, List.not_mem_nil, or_false] at h
      obtain ⟨-, rfl⟩ := h
      exact List.mem_cons_of_mem _ List.mem_cons_self
    · rw [insertMonitor_outside hn hin'] at h
      simp only [List.mem_cons, CreateStep.new.injEq, Option.some.injEq, reduceCtorEq, List.not_mem_nil, or_false] at h
      obtain ⟨rfl, -⟩ := h
      exact absurd (Option.some.inj ho ▸ hin) hin'

theorem register_of_new_all {o : Obj} {m : M} {args : NewArgs} {os : List Obj}
    (h : .new args (some m) ∈ loopSteps env allowed b os) (ho : args.location = some o) (hin : o.cpuset ⊆ allowed) :
    .register m b.fields.display 0 ∈ loopSteps env allowed b os := by
  induction os with
  | nil => exact absurd h List.not_mem_nil
  | cons o' os ih =>
    unfold loopSteps at h ⊢
    rw [List.mem_append] at h ⊢
    rcases h with h | h
    · exact Or.inl (register_of_new h ho hin)
    · refine Or.inr ?_
      rcases List.mem_cons.mp h with h | h
      · cases h
      · split_ifs at h ⊢ with hsome
        · exact List.mem_cons_of_mem _ (ih h)
        · exact absurd h List.not_mem_nil

variable [DecidableEq M]

/-- One object is always handled safely. -/
theorem safe_insertMonitor (live : List M) (location : Option Obj) :
    Safe live ((insertMonitor env allowed b location).flatMap CreateStep.touches) := by
  cases hn : env.new (b.newArgs location) with
  | none =>
    rw [insertMonitor_none hn]
    trivial
  | some m =>
    obtain ⟨o, rfl⟩ := new_location hn
    have hm : m ∈ m :: live := List.mem_cons_self
    by_cases hin : o.cpuset ⊆ allowed
    · rw [insertMonitor_inside hn hin]
      exact ⟨trivial, hm, trivial⟩
    · rw [insertMonitor_outside hn hin]
      exact ⟨trivial, hm, hm, trivial⟩

/-- The loop is safe exactly when `m` is a registered monitor each time `m->output` is written. -/
theorem safe_loopSteps (live : List M) {os : List Obj} :
    Safe live ((loopSteps env allowed b os).flatMap CreateStep.touches) ↔
      ∀ o ∈ os, (env.new (b.newArgs (some o))).isSome ∧ o.cpuset ⊆ allowed := by
  induction os generalizing live with
  | nil => exact iff_of_true trivial fun o ho => absurd ho List.not_mem_nil
  | cons o os ih =>
    rw [List.forall_mem_cons]
    unfold loopSteps
    cases hn : env.new (b.newArgs (some o)) with
    | none =>
      rw [insertMonitor_none hn]
      exact iff_of_false (fun h => h.1) fun h => Bool.false_ne_true h.1.1
    | some m =>
      have hm : m ∈ m :: live := List.mem_cons_self
      by_cases hin : o.cpuset ⊆ allowed
      · rw [insertMonitor_inside hn hin]
        constructor
        · rintro ⟨-, -, -, hrest⟩
          exact ⟨⟨rfl, hin⟩, (ih _).mp hrest⟩
        · rintro ⟨-, hrest⟩
          exact ⟨trivial, hm, hm, (ih _).mpr hrest⟩
      · rw [insertMonitor_outside hn hin]
        refine iff_of_false ?_ fun h => hin h.1.2
        rintro ⟨-, -, h⟩
        exact not_safe_use_freed h

/-- **Importing a block touches no missing and no deleted monitor and registers what it built, exactly when the block
has no event, or an index, or every object at its depth gives a monitor inside the allowed cpuset.** -/
theorem create_orderly_iff (env : ImportEnv M) (allowed : Cpuset) (b : Block) :
    (∀ steps, monitorSteps env allowed b (env.covering allowed) = .ok steps → Orderly allowed steps) ↔
      b.fields.events = [] ∨ 0 ≤ b.fields.locationIndex ∨ ∀ root, env.covering allowed = some root →
        ∀ o ∈ env.inside root.cpuset b.fields.locationDepth,
          (env.new (b.newArgs (some o))).isSome ∧ o.cpuset ⊆ allowed := by
  unfold monitorSteps
  by_cases he : b.fields.events.length = 0
  · rw [if_pos he]
    refine iff_of_true (fun steps hs => ?_) (Or.inl (List.length_eq_zero_iff.mp he))
    cases hs
    exact ⟨trivial, fun _ _ _ h => absurd h List.not_mem_nil⟩
  · have he' : b.fields.events ≠ [] := fun h => he (List.length_eq_zero_iff.mpr h)
    rw [if_neg he, or_iff_right he']
    cases hroot : env.covering allowed with
    | none => exact iff_of_true (fun steps hs => by cases hs) (Or.inr fun root hr => by cases hr)
    | some root =>
      simp only [Option.some.injEq, forall_eq']
      by_cases hi : 0 ≤ b.fields.locationIndex
      · rw [if_pos hi]
        refine iff_of_true (fun steps hs => ?_) (Or.inl hi)
        cases hs
        exact ⟨safe_insertMonitor [] _, fun _ _ _ h ho hin => ⟨_, register_of_new h ho hin⟩⟩
      · rw [if_neg hi, or_iff_right hi, ← safe_loopSteps []]
        constructor
        · intro h
          exact (h _ rfl).safe
        · intro h steps hs
          cases hs
          exact ⟨h, fun _ _ _ h ho hin => ⟨_, register_of_new_all h ho hin⟩⟩

/-- A block for all cores with `WINDOW:=0`: `new_hmonitor` returns NULL, and `m->output` is written. -/
theorem window_zero_null : ¬ ∀ (env : ImportEnv Nat) (allowed : Cpuset) (b : Block) (steps : List (CreateStep Nat)),
    monitorSteps env allowed b (env.covering allowed) = .ok steps → Orderly allowed steps := by
  intro h
  have horderly := h ⟨fun _ => some Topo.machine, fun _ _ => [Topo.coreObj 0], fun _ => some 0⟩ {0, 1}
    ⟨"m".toList, { Fields.reset with events := ["e".toList], perfPluginName := some "fake".toList, window := 0 }⟩ _ rfl
  exact horderly.safe.1

end Proofs
end Hmon.Config
