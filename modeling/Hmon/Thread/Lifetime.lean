import Hmon.Lib.Lifetimes
import Hmon.Thread.Chain
import Hmon.Thread.StartStop

/-!
# What the library allocates, until `hmon_lib_finalize`

* `Block` : monitors, and the arrays that hang off the topology; `Heap.touches` : the blocks that a step touches;
* `heapSys` : the library with its allocated blocks, and `delete_hmonitor`; `Respects` : what a program keeps to;
* `hmonLibFinalize` : the blocks that `hmon_lib_finalize` deletes;
* `Heap.Good` : what is registered, chained or worked on is allocated;
* `heap_safe` : **no step of any thread touches a deleted block; the finalisation is safe exactly when no monitor was
  registered twice, and leaves what was never registered and the arrays of NUMA nodes**.
-/

namespace Hmon
open Lib

variable {V M : Type}

inductive Block (M : Type)
  | monitor (m : M)
  | array (o : Obj)
  deriving DecidableEq

/-- The monitors that an operation reads or writes. -/
def Op.touched : Op M → List M
  | copySamples m _ c | copyEvents m _ c | addEvents m _ c => [m, c]
  | op => [op.target]

/-! ## The blocks that a call touches -/

section Touches
variable (L : Registry V M)

/-- The arrays of the objects and their monitors. -/
def Registry.walk (objs : List Obj) : List (Block M) :=
  (objs.filter fun o => (L.userdata o).isSome).flatMap fun o => .array o :: (L.objMonitors o).map .monitor

/-- The objects that `hmonitor_eventset_add_named_event` goes through. -/
def Registry.searched (location : Obj) : List Obj :=
  ((List.range L.topo.topologyDepth).filter fun d => location.depth % 2 ^ 32 ≤ (d : Int)).flatMap fun d =>
    L.topo.insideCpusetByDepth location.cpuset d

/-- The search of a chained plugin, for each name. -/
def Registry.search (location : Obj) : PerfPlugin → List (Block M)
  | .leaf _ => []
  | .hierarchical events | .accumulate events => events.flatMap fun _ => L.walk (L.searched location)

/-- `hmon_register_hmonitor`, which compares the monitor with those of both arrays. -/
def Registry.registration (m : M) : List (Touch (Block M)) :=
  let o := (L.mon m).location
  uses [.monitor m] ++
    if o.cpuset ⊆ L.allowed then
      uses (L.registered.map .monitor) ++ (if (L.userdata o).isSome then uses [.array o] else [.alloc (.array o)]) ++
        uses ((L.objMonitors o).map .monitor)
    else []

/-- `hmonitor_unregister_location` for the objects that `hmon_restrict` removes. -/
def Registry.restriction (domain : Cpuset) : List (Touch (Block M)) :=
  if domain ⊆ L.allowed then
    (List.range L.topo.topologyDepth).flatMap fun d : Nat =>
      let objs := (L.topo.insideCpusetByDepth (domain \ (L.allowed ∩ domain)) d).reverse
      (objs.filter fun o => (L.userdata o).isSome).flatMap fun o =>
        uses ((L.objMonitors o ++ L.registered).map .monitor) ++ deletions [.array o]
  else []

/-- The start of a round: the threads walk the arrays below and above their cores. -/
def Registry.walks : List (Block M) :=
  L.topo.cores.flatMap fun core => L.walk (core.here.objs ++ core.above)

/-- The objects of `hwloc_get_obj_by_depth`, depth by depth. -/
def Topo.byDepth (topo : Topo) : List Obj :=
  (List.range topo.topologyDepth).flatMap fun d : Nat => topo.objs.filter fun o => o.depth = d

/-- The arrays that `hmon_lib_finalize` deletes, and then the monitors. -/
def finalized : List (Block M) :=
  (L.topo.byDepth.filter fun o => (L.userdata o).isSome).map .array ++ L.registered.map .monitor

/-- `hmon_lib_finalize` behind its barriers. -/
def hmonLibFinalize : List (Touch (Block M)) := deletions (finalized L)

end Touches

/-! ## The heap -/

/-- The library, and what is allocated. -/
structure Heap (V M : Type) where
  world : World V M
  live : List (Block M)

inductive HeapLabel (V M : Type)
  | lib (l : Label V M)
  /-- `delete_hmonitor` -/
  | delete (m : M)

def Heap.touches (s : Heap V M) : HeapLabel V M → List (Touch (Block M))
  | .lib (.create _ _ m r) => uses (s.world.lib.search r.location r.plugin) ++ [.alloc (.monitor m)]
  | .lib (.register m _) => s.world.lib.registration m
  | .lib (.restrict domain) => s.world.lib.restriction domain
  | .lib (.start _ _) | .lib (.stop _ _) | .lib (.taskset _) => uses (s.world.lib.registered.map .monitor)
  | .lib .update => uses (s.world.lib.walks ++ s.world.lib.registered.map .monitor)
  | .lib (.step t _) => uses (((s.world.todo t).head?.elim [] Op.touched).map .monitor)
  | .lib (.call _ _) => []
  | .delete m => deletions [.monitor m]

section System
variable [DecidableEq M] [Double V]

def heapNext (s : Heap V M) (l : HeapLabel V M) : Option (Heap V M) :=
  (match l with
    | .lib l => hmonNext s.world l
    | .delete _ => some s.world).map fun w => ⟨w, afterAll s.live (s.touches l)⟩

def heapSys : Lts (Heap V M) (HeapLabel V M) := ⟨heapNext⟩

end System

/-- The library after `hmon_lib_init`, on a topology of distinct objects. -/
def Heap.Starts (s : Heap V M) : Prop := ∃ topo mon, topo.objs.Nodup ∧ s = ⟨World.init topo mon, []⟩

/-- A program registers and calls monitors that it did not delete, and deletes monitors that it did not register and
that no thread works on. -/
def Respects (s : Heap V M) : HeapLabel V M → Prop
  | .lib (.register m _) => .monitor m ∈ s.live
  | .lib (.call _ op) => .monitor op.target ∈ s.live
  | .delete m =>
    .monitor m ∈ s.live ∧ m ∉ s.world.lib.registered ∧ ∀ t, ∀ op ∈ s.world.todo t, m ∉ op.touched
  | _ => True

/-- It also registers no monitor twice. -/
def RespectsOnce [DecidableEq M] (s : Heap V M) (l : HeapLabel V M) : Prop :=
  Respects s l ∧ ∀ l', l = .lib l' → RegistersOnce s.world l'

/-- Everything that the library can reach is allocated. -/
structure Heap.Good (s : Heap V M) : Prop where
  proper : s.world.Proper
  created : ∀ {m}, .monitor m ∈ s.live → m ∈ s.world.lib.created
  registered : ∀ m ∈ s.world.lib.registered, .monitor m ∈ s.live
  children : ∀ m ∈ s.world.lib.created, ∀ c ∈ s.world.children m, c ∈ s.world.lib.registered
  todo : ∀ t, ∀ op ∈ s.world.todo t, ∀ m ∈ op.touched, .monitor m ∈ s.live
  arrays : ∀ o, .array o ∈ s.live ↔ (s.world.lib.userdata o).isSome = true

/-! ## What an operation and a step touch -/

theorem Op.target_touched (op : Op M) : op.target ∈ op.touched := by
  cases op <;> simp [touched, target]

theorem hierarchicalRead_touched (mon : M → Hmonitor Thread V M) (m : M) (base : Nat) (cs : List M) :
    ∀ op ∈ hierarchicalRead mon m base cs, ∀ x ∈ op.touched, x ∈ m :: cs := by
  induction cs generalizing base with
  | nil => exact fun op hop => absurd hop List.not_mem_nil
  | cons c cs ih =>
    rw [hierarchicalRead, List.forall_mem_cons, List.forall_mem_cons]
    refine ⟨?_, ?_, fun op hop x hx => ?_⟩
    · simp [Op.touched, Op.target]
    · simp [Op.touched]
    · rcases List.mem_cons.mp (ih _ op hop x hx) with rfl | hx
      · exact List.mem_cons_self
      · exact List.mem_cons_of_mem m (List.mem_cons_of_mem c hx)

theorem accumulateRead_touched {m : M} {base : Nat} {cs : List M} {ops : List (Op M)}
    (h : accumulateRead m base cs = some ops) : ∀ op ∈ ops, ∀ x ∈ op.touched, x ∈ m :: cs := by
  cases cs with
  | nil => cases h
  | cons c cs =>
    cases h
    rw [List.forall_mem_cons, List.forall_mem_cons, List.forall_mem_cons]
    refine ⟨?_, ?_, ?_, fun op hop x hx => ?_⟩
    · simp [Op.touched, Op.target]
    · simp [Op.touched, Op.target]
    · simp [Op.touched]
    · obtain ⟨d, hd, hop⟩ := List.mem_flatMap.mp hop
      have hdc : d ∈ m :: c :: cs := List.mem_cons_of_mem m (List.mem_cons_of_mem c hd)
      rcases List.mem_pair.mp hop with rfl | rfl
      · rw [List.mem_singleton.mp hx]
        exact hdc
      · rcases List.mem_pair.mp hx with rfl | rfl
        · exact List.mem_cons_self
        · exact hdc

/-- What an operation leaves to do touches its monitor and the children of it. -/
theorem Op.effect_touched [Double V] {self : Thread} {a : Answer V} {mon : M → Hmonitor Thread V M} {op : Op M}
    {e : Effect V M} (h : op.effect self a mon = some e) :
    ∀ o ∈ e.ops, ∀ x ∈ o.touched, x ∈ op.target :: (mon op.target).eventset.childEvents := by
  intro o ho x hx
  have hchain {m : M} {cs : List M} {ops : List (Op M)} (hops : ∀ op ∈ ops, ∀ x ∈ op.touched, x ∈ m :: cs)
      (ho : o ∈ ops ++ [.readDone m]) : x ∈ m :: cs := by
    rcases List.mem_append.mp ho with ho | ho
    · exact hops o ho x hx
    · rw [List.mem_singleton.mp ho] at hx
      rw [List.mem_singleton.mp hx]
      exact List.mem_cons_self
  cases op with
  | read m =>
    simp only [effect] at h
    split_ifs at h
    · split at h
      · cases h
        exact absurd ho List.not_mem_nil
      · rename_i cs hev
        cases h
        show x ∈ m :: (mon m).eventset.childEvents
        rw [hev]
        exact hchain (hierarchicalRead_touched mon m _ cs) ho
      · rename_i cs hev
        obtain ⟨ops, hops, rfl⟩ := Option.map_eq_some_iff.mp h
        show x ∈ m :: (mon m).eventset.childEvents
        rw [hev]
        exact hchain (accumulateRead_touched hops) ho
    · cases h
      exact absurd ho List.not_mem_nil
  | reset m =>
    cases h
    obtain ⟨c, hc, rfl⟩ := List.mem_map.mp ho
    rw [List.mem_singleton.mp hx]
    exact List.mem_cons_of_mem m hc
  | lockChild c =>
    have hself : x = c := by
      rcases lockChild_cases h with ⟨-, rfl⟩ | ⟨-, -, rfl⟩ | ⟨-, -, rfl⟩ <;>
        simp only [List.mem_cons, List.not_mem_nil, or_false] at ho
      · rcases ho with rfl | rfl | rfl <;> exact List.mem_singleton.mp hx
      · rcases ho with rfl | rfl | rfl <;> exact List.mem_singleton.mp hx
      · rw [ho] at hx
        exact List.mem_singleton.mp hx
    rw [hself]
    exact List.mem_cons_self
  | blocked c =>
    simp only [effect] at h
    split_ifs at h
    cases h
    rw [List.mem_singleton.mp ho] at hx
    rw [List.mem_singleton.mp hx]
    exact List.mem_cons_self
  | start m | stop m | reduce m | unlock m | release m | readDone m | copySamples m base c | copyEvents m base c
  | addEvents m base c =>
    cases h
    exact absurd ho List.not_mem_nil

/-- A restriction removes nothing: the removed set is empty. -/
theorem restriction_eq_nil (L : Registry V M) (domain : Cpuset) : L.restriction domain = [] := by
  unfold Registry.restriction
  split_ifs with hd
  · rw [Finset.inter_eq_right.mpr hd, sdiff_self, Finset.bot_eq_empty, List.flatMap_eq_nil_iff]
    intro d _
    rw [Topo.insideCpusetByDepth_empty]
    rfl
  · rfl

/-! ## Everything within reach is allocated -/

section Good
variable [DecidableEq M] {s s' : Heap V M}

omit [DecidableEq M] in
/-- The arrays of objects and their monitors are allocated. -/
theorem Heap.Good.walk (h : s.Good) (objs : List Obj) : ∀ b ∈ s.world.lib.walk objs, b ∈ s.live := by
  intro b hb
  obtain ⟨o, ho, hb⟩ := List.mem_flatMap.mp hb
  rcases List.mem_cons.mp hb with rfl | hb
  · exact (h.arrays o).mpr (List.mem_filter.mp ho).2
  · obtain ⟨m, hm, rfl⟩ := List.mem_map.mp hb
    exact h.registered m ((h.proper.sound.mem o m).mp hm).1

omit [DecidableEq M] in
theorem Heap.Good.monitors (h : s.Good) : ∀ b ∈ s.world.lib.registered.map .monitor, b ∈ s.live :=
  List.forall_mem_map.mpr h.registered

omit [DecidableEq M] in
theorem Heap.Good.search (h : s.Good) (location : Obj) (plugin : PerfPlugin) :
    ∀ b ∈ s.world.lib.search location plugin, b ∈ s.live := by
  intro b hb
  cases plugin with
  | leaf n => cases hb
  | hierarchical events | accumulate events =>
    obtain ⟨_, -, hb⟩ := List.mem_flatMap.mp hb
    exact h.walk _ b hb

/-- A registration is safe, and allocates the first array of an object. -/
theorem Heap.Good.registration (h : s.Good) {m : M} (hm : .monitor m ∈ s.live) :
    Safe s.live (s.world.lib.registration m) := by
  unfold Registry.registration
  rw [safe_append, safe_uses, afterAll_uses]
  refine ⟨by simpa using hm, ?_⟩
  split_ifs with hin ha
  · rw [safe_append, safe_append, safe_uses, afterAll_append, afterAll_uses, safe_uses, afterAll_uses, safe_uses]
    refine ⟨⟨h.monitors, by simpa using (h.arrays _).mpr ha⟩, List.forall_mem_map.mpr fun x hx => ?_⟩
    exact h.registered x ((h.proper.sound.mem _ x).mp hx).1
  · rw [safe_append, safe_append, safe_uses, afterAll_append, afterAll_uses, safe_uses]
    refine ⟨⟨h.monitors, trivial, trivial⟩, List.forall_mem_map.mpr fun x hx => List.mem_cons_of_mem _ ?_⟩
    exact h.registered x ((h.proper.sound.mem _ x).mp hx).1
  · trivial

/-- Every step of a program that respects the library is safe. -/
theorem Heap.Good.safe (h : s.Good) {l : HeapLabel V M} (hok : Respects s l) : Safe s.live (s.touches l) := by
  cases l with
  | delete m => exact safe_deletions.mpr ⟨List.nodup_singleton _, by simpa using hok.1⟩
  | lib l =>
    cases l with
    | create t now m r => exact safe_append.mpr ⟨safe_uses.mpr (h.search _ _), trivial, trivial⟩
    | register m display => exact h.registration hok
    | restrict domain =>
      show Safe s.live (s.world.lib.restriction domain)
      rw [restriction_eq_nil]
      trivial
    | start | stop | taskset => exact safe_uses.mpr h.monitors
    | call => trivial
    | update =>
      refine safe_uses.mpr (List.forall_mem_append.mpr ⟨fun b hb => ?_, h.monitors⟩)
      obtain ⟨core, -, hb⟩ := List.mem_flatMap.mp hb
      exact h.walk _ b hb
    | step t a =>
      refine safe_uses.mpr (List.forall_mem_map.mpr fun m hm => ?_)
      cases htodo : s.world.todo t with
      | nil =>
        rw [htodo] at hm
        cases hm
      | cons op ops =>
        rw [htodo] at hm
        exact h.todo t op (htodo ▸ List.mem_cons_self) m hm

/-! ### A step keeps it -/

omit [DecidableEq M] in
/-- A step that leaves the heap, the arrays and the children alone. -/
theorem Heap.Good.same (h : s.Good) {w : World V M} (hp : w.Proper) (hc : SameChildren s.world w)
    (hr : w.lib.registered = s.world.lib.registered) (hu : w.lib.userdata = s.world.lib.userdata)
    (ht : ∀ t, ∀ op ∈ w.todo t, ∀ m ∈ op.touched, .monitor m ∈ s.live) : Heap.Good ⟨w, s.live⟩ where
  proper := hp
  created hm := hc.created.symm ▸ h.created hm
  registered := hr.symm ▸ h.registered
  children m hm c hcm := hr.symm ▸ h.children m (hc.created ▸ hm) c (hc.children ▸ hcm)
  todo := ht
  arrays o := hu.symm ▸ h.arrays o

theorem hmonitorsDo_todo (call : M → Hmonitor Thread V M → Outcome Thread V M) (ms : List M) (w : World V M) :
    (World.hmonitorsDo call ms w).todo = w.todo := by
  induction ms generalizing w with
  | nil => rfl
  | cons m ms ih => exact ih _

/-- The loops over all monitors. -/
theorem Heap.Good.hmonitorsDo (h : s.Good) {call : M → Hmonitor Thread V M → Outcome Thread V M}
    (hc : ∀ m x, SameShape x (call m x).mon) (ms : List M) :
    Heap.Good ⟨World.hmonitorsDo call ms s.world, s.live⟩ := by
  refine h.same (h.proper.hmonitorsDo hc ms) (.hmonitorsDo hc ms s.world) (hmonitorsDo_registered call ms s.world)
    (hmonitorsDo_arrays call ms s.world).2 ?_
  rw [hmonitorsDo_todo]
  exact h.todo

omit [DecidableEq M] in
theorem Heap.Good.call (h : s.Good) {t : Thread} {op : Op M} (ht : t ∈ s.world.lib.threads) (hcall : op.isCall = true)
    (hop : .monitor op.target ∈ s.live) :
    Heap.Good ⟨{ s.world with todo := Function.update s.world.todo t [op] }, s.live⟩ := by
  refine h.same (h.proper.call ht op) ⟨rfl, rfl⟩ rfl rfl ?_
  refine (Function.forall_update_iff s.world.todo fun _ ops => ∀ o ∈ ops, ∀ m ∈ o.touched, Block.monitor m ∈ s.live).mpr
    ⟨fun o ho m hm => ?_, fun u _ => h.todo u⟩
  rw [List.mem_singleton.mp ho] at hm
  cases op with
  | start | stop | read | reduce | reset => rwa [List.mem_singleton.mp hm]
  | lockChild | blocked | unlock | release | copySamples | copyEvents | addEvents | readDone => cases hcall

omit [DecidableEq M] in
/-- The programs of a round call registered monitors. -/
theorem hmonitorThread_touched {L : Registry V M} (hs : L.Sound) {i : Nat} {op : Op M} (ho : op ∈ hmonitorThread L i)
    {m : M} (hm : m ∈ op.touched) : m ∈ L.registered := by
  simp only [hmonitorThread, collect, List.mem_append, List.mem_map] at ho
  rcases ho with ((⟨x, hx, rfl⟩ | ⟨x, hx, rfl⟩) | ⟨x, hx, rfl⟩) | ⟨x, hx, rfl⟩ <;>
    exact List.mem_singleton.mp hm ▸ Registry.visits_registered hs hx

omit [DecidableEq M] in
theorem Heap.Good.update (h : s.Good) : Heap.Good ⟨s.world.update, s.live⟩ := by
  refine h.same h.proper.update ⟨rfl, rfl⟩ rfl rfl fun t op hop m hm => ?_
  cases t with
  | main => exact h.todo .main op hop m hm
  | core i => exact h.registered m (hmonitorThread_touched h.proper.sound hop hm)

theorem Heap.Good.step [Double V] (h : s.Good) {t : Thread} {a : Answer V} {w : World V M}
    (hn : s.world.step a t = some w) : Heap.Good ⟨w, s.live⟩ := by
  have hproper := h.proper.step hn
  have hchildren := SameChildren.step hn
  obtain ⟨op, ops, e, htodo, he, rfl⟩ := World.step_cases hn
  have htarget : .monitor op.target ∈ s.live :=
    h.todo t op (htodo ▸ List.mem_cons_self) op.target op.target_touched
  refine h.same hproper hchildren rfl rfl
    (s.world.commit_todo_all (Q := fun ops => ∀ o ∈ ops, ∀ m ∈ o.touched, Block.monitor m ∈ s.live) t _ e ops h.todo
      fun o ho m hm => ?_)
  rcases List.mem_append.mp ho with ho | ho
  · rcases List.mem_cons.mp (Op.effect_touched he o ho m hm) with rfl | hc
    · exact htarget
    · exact h.registered m (h.children op.target (h.created htarget) m hc)
  · exact h.todo t o (htodo ▸ List.mem_cons_of_mem op ho) m hm

theorem Heap.Good.create [Double V] (h : s.Good) {t : Thread} {now : Int} {m : M} {r : Request V}
    {x : Hmonitor Thread V M} (hm : m ∉ s.world.lib.created) (ht : t ∈ s.world.lib.threads)
    (hx : s.world.lib.newHmonitor t now r = some x) :
    Heap.Good ⟨{ s.world with
      lib := { s.world.lib.setMon m x with created := m :: s.world.lib.created }
      todo := Function.update s.world.todo t (x.eventset.childEvents.map .reset) }, .monitor m :: s.live⟩ := by
  have hch : ∀ c ∈ x.eventset.childEvents, c ∈ s.world.lib.registered := by
    obtain ⟨⟨ev, n⟩, he, hx⟩ := Option.bind_eq_some_iff.mp hx
    obtain ⟨-, -, -, hev⟩ := newHmonitor_fresh hx
    rw [hev]
    exact newEventset_registered h.proper.sound he
  refine ⟨h.proper.create ht hm x _, fun hy => ?_, fun y hy => List.mem_cons_of_mem _ (h.registered y hy),
    fun y hy c hc => ?_, ?_, fun o => ?_⟩
  · rcases List.mem_cons.mp hy with heq | hy
    · exact Block.monitor.inj heq ▸ List.mem_cons_self
    · exact List.mem_cons_of_mem m (h.created hy)
  · show c ∈ s.world.lib.registered
    have hc : c ∈ ((s.world.lib.setMon m x).mon y).eventset.childEvents := hc
    by_cases hym : y = m
    · rw [hym, s.world.lib.setMon_mon_self m x] at hc
      exact hch c hc
    · rw [s.world.lib.setMon_mon_ne x hym] at hc
      exact h.children y ((List.mem_cons.mp hy).resolve_left hym) c hc
  · refine (Function.forall_update_iff s.world.todo
      fun _ ops => ∀ o ∈ ops, ∀ y ∈ o.touched, Block.monitor y ∈ Block.monitor m :: s.live).mpr
      ⟨fun o ho y hy => ?_, fun u _ o ho y hy => List.mem_cons_of_mem _ (h.todo u o ho y hy)⟩
    obtain ⟨c, hc, rfl⟩ := List.mem_map.mp ho
    rw [List.mem_singleton.mp hy]
    exact List.mem_cons_of_mem _ (h.registered c (hch c hc))
  · rw [List.mem_cons, or_iff_right nofun]
    exact h.arrays o

/-- The heap behind a registration: an object without an array got one. -/
theorem afterAll_registration (L : Registry V M) (m : M) (live : List (Block M)) :
    afterAll live (L.registration m) =
      if (L.mon m).location.cpuset ⊆ L.allowed ∧ L.userdata (L.mon m).location = none then
        .array (L.mon m).location :: live
      else live := by
  unfold Registry.registration
  simp only [afterAll_append, afterAll_uses]
  by_cases hin : (L.mon m).location.cpuset ⊆ L.allowed
  · rw [if_pos hin, afterAll_append, afterAll_append, afterAll_uses, afterAll_uses]
    cases hu : L.userdata (L.mon m).location with
    | none =>
      rw [Option.isSome_none, if_neg Bool.false_ne_true, if_pos ⟨hin, rfl⟩]
      rfl
    | some a =>
      rw [Option.isSome_some, if_pos rfl, if_neg fun hc => nomatch hc.2]
      rfl
  · rw [if_neg hin, if_neg fun hc => hin hc.1]
    rfl

theorem Heap.Good.register (h : s.Good) {m : M} (hm : .monitor m ∈ s.live) {L : Registry V M}
    (hi : Inserts s.world.lib m L) :
    Heap.Good ⟨{ s.world with lib := L }, afterAll s.live (s.world.lib.registration m)⟩ := by
  have hreg := hi.registers h.proper.sound
  have hc := SameChildren.register hreg
  obtain ⟨_, _, array, -, hu⟩ := hi.array
  rw [afterAll_registration]
  have hmem {b : Block M} : (b ∈ if (s.world.lib.mon m).location.cpuset ⊆ s.world.lib.allowed ∧
      s.world.lib.userdata (s.world.lib.mon m).location = none then .array (s.world.lib.mon m).location :: s.live
      else s.live) ↔ b ∈ s.live ∨ b = .array (s.world.lib.mon m).location := by
    split_ifs with hn
    · rw [List.mem_cons, or_comm]
    · refine (or_iff_left_of_imp ?_).symm
      rintro rfl
      exact (h.arrays _).mpr (Option.isSome_iff_ne_none.mpr fun hnone => hn ⟨hi.inside, hnone⟩)
  refine ⟨h.proper.register (h.created hm) hreg, fun hx => ?_, fun x hx => hmem.mpr (Or.inl ?_), fun x hx c hcx => ?_,
    fun t op hop x hx => hmem.mpr (Or.inl (h.todo t op hop x hx)), fun o => hmem.trans ?_⟩
  · exact hi.created.symm ▸ h.created ((hmem.mp hx).resolve_right nofun)
  · rcases List.mem_cons.mp (hreg.registered.mem_iff.mp hx) with rfl | hx
    · exact hm
    · exact h.registered x hx
  · refine hreg.registered.mem_iff.mpr (List.mem_cons_of_mem m (h.children x (hc.created ▸ hx) c ?_))
    exact hc.children ▸ hcx
  · show _ ↔ (L.userdata o).isSome = true
    rw [hu, h.arrays, Block.array.injEq]
    by_cases ho : o = (s.world.lib.mon m).location
    · rw [ho, Function.update_self]
      exact iff_of_true (Or.inr rfl) rfl
    · rw [Function.update_of_ne ho, or_iff_left ho]

theorem Heap.Good.delete (h : s.Good) {m : M} (hm : m ∉ s.world.lib.registered)
    (ht : ∀ t, ∀ op ∈ s.world.todo t, m ∉ op.touched) :
    Heap.Good ⟨s.world, afterAll s.live (deletions [.monitor m])⟩ := by
  have hmem {b : Block M} : b ∈ afterAll s.live (deletions [.monitor m]) ↔ b ∈ s.live ∧ b ≠ .monitor m := by
    rw [mem_afterAll_deletions, List.mem_singleton]
  refine ⟨h.proper, fun hx => h.created (hmem.mp hx).1, fun x hx => hmem.mpr ⟨h.registered x hx, ?_⟩, h.children,
    fun t op hop x hx => hmem.mpr ⟨h.todo t op hop x hx, ?_⟩, fun o => ?_⟩
  · intro heq
    exact hm (Block.monitor.inj heq ▸ hx)
  · intro heq
    exact ht t op hop (Block.monitor.inj heq ▸ hx)
  · rw [hmem, and_iff_left nofun]
    exact h.arrays o

/-- A monitor inside the allowed cpuset is registered. -/
theorem register_refused {L L' : Registry V M} {m : M} {display : Nat}
    (h : hmonRegisterHmonitor L m display = .ok (-1, L')) : ¬ (L.mon m).location.cpuset ⊆ L.allowed := by
  intro hin
  unfold hmonRegisterHmonitor at h
  rw [if_neg (not_not_intro hin)] at h
  simp only [bind, Except.bind] at h
  split at h
  · cases h
  · split at h
    · cases h
    · split at h <;> cases h

/-- A step, of the library or a deletion, keeps what is within reach allocated. -/
theorem Heap.Good.next [Double V] (h : s.Good) {l : HeapLabel V M} (hok : Respects s l)
    (hn : heapNext s l = some s') : s'.Good := by
  cases l with
  | delete m =>
    cases hn
    exact h.delete hok.2.1 hok.2.2
  | lib l =>
    obtain ⟨w, hw, rfl⟩ := Option.map_eq_some_iff.mp hn
    cases l with
    | create t now m r =>
      simp only [hmonNext] at hw
      split_ifs at hw with hc
      obtain ⟨x, hx, rfl⟩ := Option.map_eq_some_iff.mp hw
      have hlive : afterAll s.live (s.touches (.lib (.create t now m r))) = .monitor m :: s.live := by
        show afterAll s.live (uses _ ++ [.alloc (.monitor m)]) = _
        rw [afterAll_append, afterAll_uses]
        rfl
      rw [hlive]
      exact h.create hc.1 hc.2.1 hx
    | register m display =>
      simp only [hmonNext] at hw
      split_ifs at hw
      obtain ⟨⟨r, L⟩, hr, rfl⟩ := Option.map_eq_some_iff.mp hw
      have hr : hmonRegisterHmonitor s.world.lib m display = .ok (r, L) := by
        cases hreg : hmonRegisterHmonitor s.world.lib m display with
        | error f => rw [hreg] at hr; cases hr
        | ok res => rw [hreg] at hr; cases hr; rfl
      rcases register_inserts hr with ⟨rfl, rfl⟩ | ⟨-, hi⟩
      · show Heap.Good ⟨s.world, afterAll s.live (s.world.lib.registration m)⟩
        rw [afterAll_registration, if_neg fun hc => register_refused hr hc.1]
        exact h
      · exact h.register hok hi
    | restrict domain =>
      have hlive : afterAll s.live (s.touches (.lib (.restrict domain))) = s.live := by
        show afterAll s.live (s.world.lib.restriction domain) = s.live
        rw [restriction_eq_nil]
        rfl
      rw [hlive]
      have hproper := h.proper.next hw
      cases hmonNext_cases h.proper.sound hw with
      | refused => exact h
      | restrict => exact h.same hproper ⟨rfl, rfl⟩ rfl rfl h.todo
    | start t a =>
      simp only [hmonNext] at hw
      split_ifs at hw
      cases hw
      exact (afterAll_uses s.live _).symm ▸ h.hmonitorsDo (fun _ x => hmonitorStart_shape _ _ x) _
    | stop t a =>
      simp only [hmonNext] at hw
      split_ifs at hw
      cases hw
      exact (afterAll_uses s.live _).symm ▸ h.hmonitorsDo (fun _ x => hmonitorStop_shape _ _ x) _
    | taskset running =>
      simp only [hmonNext] at hw
      split_ifs at hw
      cases hw
      exact (afterAll_uses s.live _).symm ▸ h.hmonitorsDo (fun _ x => World.tasksetStop_shape _ x) _
    | call t op =>
      simp only [hmonNext] at hw
      split_ifs at hw with hc
      cases hw
      exact h.call hc.2.2.1 hc.1 hok
    | update =>
      simp only [hmonNext] at hw
      split_ifs at hw
      cases hw
      exact (afterAll_uses s.live _).symm ▸ h.update
    | step t a => exact (afterAll_uses s.live _).symm ▸ h.step hw

theorem heapSys_good [Double V] (h : heapSys.Reach Heap.Starts Respects s) : s.Good := by
  refine h.invariant ?_ fun _ _ _ hi hok hn => hi.next hok hn
  rintro _ ⟨topo, mon, -, rfl⟩
  exact ⟨World.init_proper topo mon, nofun, nofun, nofun, nofun, fun o => iff_of_false List.not_mem_nil nofun⟩

/-! ## The finalisation -/

/-- No step changes the topology, and only a registration the registered monitors. -/
theorem hmonNext_registered [Double V] {w w' : World V M} {l : Label V M} (hp : w.Proper) (hn : hmonNext w l = some w') :
    w'.lib.topo = w.lib.topo ∧ (w'.lib.registered = w.lib.registered ∨
      ∃ m display, l = .register m display ∧ w'.lib.registered.Perm (m :: w.lib.registered)) := by
  cases hmonNext_cases hp.sound hn with
  | refused | create | restrict | call | update => exact ⟨rfl, Or.inl rfl⟩
  | register _ hreg => exact ⟨hreg.topo, Or.inr ⟨_, _, rfl, hreg.registered⟩⟩
  | start | stop | taskset => exact ⟨(hmonitorsDo_arrays _ _ _).1, Or.inl (hmonitorsDo_registered _ _ _)⟩
  | step hs =>
    obtain ⟨op, ops, e, -, -, rfl⟩ := World.step_cases hs
    exact ⟨rfl, Or.inl rfl⟩

theorem heapSys_objs [Double V] (h : heapSys.Reach Heap.Starts Respects s) : s.world.lib.topo.objs.Nodup := by
  refine Lts.Reach.invariant_of (I := fun s : Heap V M => s.world.lib.topo.objs.Nodup) (J := Heap.Good)
    (fun _ => heapSys_good) ?_ (fun s l s' hg hi _ hn => ?_) h
  · rintro _ ⟨topo, mon, ht, rfl⟩
    exact ht
  · obtain ⟨w, hw, rfl⟩ := Option.map_eq_some_iff.mp hn
    cases l with
    | delete m => cases hw; exact hi
    | lib l => exact (hmonNext_registered hg.proper hw).1.symm ▸ hi

/-- A program that registers nothing twice has no monitor twice in the array. -/
theorem heapSys_once [Double V] (h : heapSys.Reach Heap.Starts RespectsOnce s) : s.world.lib.registered.Nodup := by
  refine Lts.Reach.invariant_of (I := fun s : Heap V M => s.world.lib.registered.Nodup) (J := Heap.Good)
    (fun _ hr => heapSys_good (hr.mono (fun _ => id) fun _ _ hok => hok.1)) ?_ (fun s l s' hg hi hok hn => ?_) h
  · rintro _ ⟨topo, mon, -, rfl⟩
    exact List.nodup_nil
  · obtain ⟨w, hw, rfl⟩ := Option.map_eq_some_iff.mp hn
    cases l with
    | delete m => cases hw; exact hi
    | lib l =>
      rcases (hmonNext_registered hg.proper hw).2 with hr | ⟨m, display, rfl, hr⟩
      · exact hr.symm ▸ hi
      · exact hr.nodup_iff.mpr (List.nodup_cons.mpr ⟨of_decide_eq_true (hok.2 _ rfl), hi⟩)

omit [DecidableEq M] in
theorem Topo.byDepth_nodup {topo : Topo} (h : topo.objs.Nodup) : topo.byDepth.Nodup := by
  refine List.nodup_flatMap.mpr ⟨fun d _ => h.filter _, List.nodup_range.imp fun {d d'} hne => ?_⟩
  intro o ho ho'
  have hd := of_decide_eq_true (List.mem_filter.mp ho).2
  have hd' := of_decide_eq_true (List.mem_filter.mp ho').2
  exact hne (Int.ofNat.inj (hd.symm.trans hd'))

omit [DecidableEq M] in
theorem finalized_nodup {L : Registry V M} (h : L.topo.objs.Nodup) : (finalized L).Nodup ↔ L.registered.Nodup := by
  have harrays : ((L.topo.byDepth.filter fun o => (L.userdata o).isSome).map (Block.array (M := M))).Nodup :=
    (Topo.byDepth_nodup h).filter _ |>.map fun _ _ => Block.array.inj
  unfold finalized
  rw [List.nodup_append, and_iff_right harrays, List.nodup_map_iff fun _ _ => Block.monitor.inj]
  refine and_iff_left fun b hb b' hb' => ?_
  obtain ⟨o, -, rfl⟩ := List.mem_map.mp hb
  obtain ⟨m, -, rfl⟩ := List.mem_map.mp hb'
  exact nofun

/-- What `hmon_lib_finalize` leaves allocated. -/
structure Leaves (s : Heap V M) : Prop where
  monitors : ∀ m, .monitor m ∈ afterAll s.live (hmonLibFinalize s.world.lib) ↔
    .monitor m ∈ s.live ∧ m ∉ s.world.lib.registered
  arrays : ∀ o, .array o ∈ afterAll s.live (hmonLibFinalize s.world.lib) ↔
    (s.world.lib.userdata o).isSome = true ∧ o ∉ s.world.lib.topo.byDepth

theorem Heap.Good.leaves (h : s.Good) : Leaves s := by
  refine ⟨fun m => ?_, fun o => ?_⟩
  · refine mem_afterAll_deletions.trans (and_congr_right fun _ => not_congr ?_)
    simp [finalized]
  · refine mem_afterAll_deletions.trans ?_
    rw [h.arrays]
    refine and_congr_right fun ho => not_congr ?_
    simp [finalized, ho]

/-- **No step of any thread touches a deleted monitor or array. `hmon_lib_finalize` is safe exactly when no monitor was
registered twice; it leaves what was never registered, and the arrays of NUMA nodes.** -/
theorem heap_safe [Double V] (h : heapSys.Reach Heap.Starts Respects s) :
    (∀ l, Respects s l → Safe s.live (s.touches l)) ∧
      (Safe s.live (hmonLibFinalize s.world.lib) ↔ s.world.lib.registered.Nodup) ∧
      (heapSys.Reach Heap.Starts RespectsOnce s → s.world.lib.registered.Nodup) ∧ Leaves s := by
  have hgood := heapSys_good h
  refine ⟨fun l hok => hgood.safe hok, ?_, heapSys_once, hgood.leaves⟩
  unfold hmonLibFinalize
  rw [safe_deletions, finalized_nodup (heapSys_objs h), and_iff_left]
  intro b hb
  rcases List.mem_append.mp hb with hb | hb
  · obtain ⟨o, ho, rfl⟩ := List.mem_map.mp hb
    exact (hgood.arrays o).mpr (List.mem_filter.mp ho).2
  · exact hgood.monitors b hb

end Good

/-! ## A monitor that is registered, and one that is deleted -/

namespace Demo

/-- Monitor 0 is registered; monitor 1 is created and deleted. -/
def heapRun : List (HeapLabel ℚ ℕ) :=
  [.lib (.create .main 0 0 (leaf [1] (Topo.coreObj 0))), .lib (.register 0 0),
    .lib (.create .main 0 1 (leaf [2] (Topo.coreObj 1))), .delete 1]

def heapEnd : Heap ℚ ℕ := (heapSys.exec ⟨init, []⟩ heapRun).get rfl

theorem heapRun_once : heapSys.Along RespectsOnce ⟨init, []⟩ heapRun := by
  refine ⟨⟨trivial, ?_⟩, fun s₁ h₁ => ?_⟩
  · rintro _ ⟨⟩
    rfl
  cases h₁
  refine ⟨⟨List.mem_cons_self, ?_⟩, fun s₂ h₂ => ?_⟩
  · rintro _ ⟨⟩
    rfl
  cases h₂
  refine ⟨⟨trivial, ?_⟩, fun s₃ h₃ => ?_⟩
  · rintro _ ⟨⟩
    rfl
  cases h₃
  refine ⟨⟨⟨List.mem_cons_self, by decide, fun t op hop => ?_⟩, nofun⟩, fun _ _ => trivial⟩
  cases t <;> cases hop

end Demo

open Demo in
/-- Behind this run only the array of the registered monitor's core and the monitor are allocated, and the finalisation
deletes both. -/
theorem heap_safe_core : heapSys.exec ⟨init, []⟩ heapRun = some heapEnd ∧
    heapEnd.live = [.array (Topo.coreObj 0), .monitor 0] ∧ Safe heapEnd.live (hmonLibFinalize heapEnd.world.lib) ∧
    Leaves heapEnd := by
  have hinit : Heap.Starts (⟨init, []⟩ : Heap ℚ ℕ) := ⟨_, _, by decide, rfl⟩
  have hexec : heapSys.exec ⟨init, []⟩ heapRun = some heapEnd := rfl
  have honce : heapSys.Reach Heap.Starts RespectsOnce heapEnd := (Lts.Reach.init hinit).of_along heapRun_once hexec
  have h := heap_safe (honce.mono (fun _ => id) fun _ _ hok => hok.1)
  exact ⟨hexec, by decide, h.2.1.mpr (h.2.2.1 honce), h.2.2.2⟩

end Hmon
