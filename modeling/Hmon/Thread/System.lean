import Hmon.Restrict
import Hmon.Thread.Round

/-!
# The library as a whole

* `Request`, `Registry.newHmonitor` : the creation of a monitor, its children looked up by name;
* `hmonSys` : creation, registration, restriction, calls and rounds, in any order and interleaving; `hmonNext_cases` :
  what one of its steps can do;
* `World.Proper` : the registry is sound and only existing threads have something to do, in every reachable
  state.
-/

namespace Hmon
open Lib

variable {V M : Type}

/-- What `new_hmonitor` is called with. -/
structure Request (V : Type) where
  id : CString
  location : Obj
  plugin : PerfPlugin
  window : Nat
  model : Option (Option (Model V))
  nSamples : Nat
  output : Option Nat
  raw : Nat → V

/-- `new_hmonitor` in a registry: `none` when it returns NULL. -/
def Registry.newHmonitor [Double V] (L : Registry V M) (self : Thread) (now : Int) (r : Request V) :
    Option (Hmonitor Thread V M) :=
  (newEventset L r.location r.plugin).bind fun (eventset, added) =>
    Hmon.newHmonitor self now ⟨r.id, r.location, eventset, added, r.window, r.model, r.nSamples, r.output, r.raw⟩

inductive Label (V M : Type)
  /-- `new_hmonitor` by the thread `t` allocates `m`; a chained plugin then resets its children. -/
  | create (t : Thread) (now : Int) (m : M) (r : Request V)
  | register (m : M) (display : Nat)
  | restrict (domain : Cpuset)
  /-- `hmon_start`, `hmon_stop` and `hmon_restrict_pid_taskset` while the core threads are idle. -/
  | start (t : Thread) (a : M → Answer V)
  | stop (t : Thread) (a : M → Answer V)
  | taskset (running : Cpuset)
  /-- The thread `t` calls `hmonitor_start`, `hmonitor_stop`, `hmonitor_read`, `hmonitor_reduce` or
  `hmonitor_reset`. -/
  | call (t : Thread) (op : Op M)
  | update
  | step (t : Thread) (a : Answer V)

/-- The operations that are calls of a program. -/
def Op.isCall : Op M → Bool
  | .start _ | .stop _ | .read _ | .reduce _ | .reset _ => true
  | _ => false

/-- The main thread and the threads of the cores. -/
def Registry.threads (L : Registry V M) : List Thread := .main :: (List.range L.ncores).map .core

/-- No thread is in a call. -/
def World.idle (w : World V M) : Bool := w.lib.threads.all fun t => (w.todo t).isEmpty

section System
variable [DecidableEq M] [Double V]

def hmonNext (w : World V M) : Label V M → Option (World V M)
  | .create t now m r =>
    if m ∉ w.lib.created ∧ t ∈ w.lib.threads ∧ w.todo t = [] then
      (w.lib.newHmonitor t now r).map fun h =>
        { w with
          lib := { w.lib.setMon m h with created := m :: w.lib.created }
          todo := Function.update w.todo t (h.eventset.childEvents.map .reset) }
    else none
  | .register m display =>
    if m ∈ w.lib.created then
      (hmonRegisterHmonitor w.lib m display).toOption.map fun r => { w with lib := r.2 }
    else none
  | .restrict domain => (hmonRestrict w.lib domain).toOption.map fun r => { w with lib := r.1 }
  | .start t a => if w.idle then some (w.hmonStart t a) else none
  | .stop t a => if w.idle then some (w.hmonStop t a) else none
  | .taskset running => if w.idle then some (w.hmonRestrictPidTaskset running) else none
  | .call t op =>
    if op.isCall ∧ op.target ∈ w.lib.created ∧ t ∈ w.lib.threads ∧ w.todo t = [] then
      some { w with todo := Function.update w.todo t [op] }
    else none
  | .update => if w.idle then some w.update else none
  | .step t a => w.step a t

def hmonSys : Lts (World V M) (Label V M) := ⟨hmonNext⟩

/-- What a step of the library does, by its label; a refused registration or restriction does nothing. -/
inductive HmonStep (w : World V M) : Label V M → World V M → Prop
  | refused (l : Label V M) : HmonStep w l w
  | create {t : Thread} {now : Int} {m : M} {r : Request V} {h : Hmonitor Thread V M} :
      m ∉ w.lib.created → t ∈ w.lib.threads → w.lib.newHmonitor t now r = some h →
      HmonStep w (.create t now m r) { w with
        lib := { w.lib.setMon m h with created := m :: w.lib.created }
        todo := Function.update w.todo t (h.eventset.childEvents.map .reset) }
  | register {m : M} {display : Nat} {L : Registry V M} : m ∈ w.lib.created → Registers w.lib m L →
      HmonStep w (.register m display) { w with lib := L }
  | restrict {domain : Cpuset} : HmonStep w (.restrict domain) { w with lib := { w.lib with allowed := domain } }
  | start {t : Thread} {a : M → Answer V} : HmonStep w (.start t a) (w.hmonStart t a)
  | stop {t : Thread} {a : M → Answer V} : HmonStep w (.stop t a) (w.hmonStop t a)
  | taskset {running : Cpuset} : HmonStep w (.taskset running) (w.hmonRestrictPidTaskset running)
  | call {t : Thread} {op : Op M} : op.target ∈ w.lib.created → t ∈ w.lib.threads →
      HmonStep w (.call t op) { w with todo := Function.update w.todo t [op] }
  | update : HmonStep w .update w.update
  | step {t : Thread} {a : Answer V} {w' : World V M} : w.step a t = some w' → HmonStep w (.step t a) w'

theorem hmonNext_cases {w w' : World V M} {l : Label V M} (hs : w.lib.Sound) (hn : hmonNext w l = some w') :
    HmonStep w l w' := by
  cases l with
  | create t now m r =>
    simp only [hmonNext] at hn
    split_ifs at hn with hc
    obtain ⟨h, hh, rfl⟩ := Option.map_eq_some_iff.mp hn
    exact .create hc.1 hc.2.1 hh
  | register m display =>
    simp only [hmonNext] at hn
    split_ifs at hn with hm
    cases hr : hmonRegisterHmonitor w.lib m display with
    | error f => rw [hr] at hn; cases hn
    | ok res =>
      obtain ⟨r, L⟩ := res
      rw [hr] at hn
      cases hn
      rcases register_cases hs hr with ⟨-, rfl⟩ | ⟨-, hreg⟩
      · exact .refused _
      · exact .register hm hreg
  | restrict domain =>
    simp only [hmonNext] at hn
    by_cases hd : domain ⊆ w.lib.allowed
    · rw [hmonRestrict_included hd] at hn
      cases hn
      exact .restrict
    · rw [hmonRestrict_forbidden hd] at hn
      cases hn
      exact .refused _
  | start t a =>
    simp only [hmonNext] at hn
    split_ifs at hn
    cases hn
    exact .start
  | stop t a =>
    simp only [hmonNext] at hn
    split_ifs at hn
    cases hn
    exact .stop
  | taskset running =>
    simp only [hmonNext] at hn
    split_ifs at hn
    cases hn
    exact .taskset
  | call t op =>
    simp only [hmonNext] at hn
    split_ifs at hn with hc
    cases hn
    exact .call hc.2.1 hc.2.2.1
  | update =>
    simp only [hmonNext] at hn
    split_ifs at hn
    cases hn
    exact .update
  | step t a => exact .step hn

end System

/-- The library after `hmon_lib_init`. -/
def World.init (topo : Topo) (mon : M → Hmonitor Thread V M) : World V M :=
  ⟨Registry.init topo mon, fun _ => [], [], []⟩

def Fresh (w : World V M) : Prop := ∃ topo mon, w = World.init topo mon

/-! ## Every reachable state is proper -/

/-- The registry is sound, registered monitors were allocated, and only existing threads have something to do. -/
structure World.Proper (w : World V M) : Prop where
  sound : w.lib.Sound
  created : ∀ m ∈ w.lib.registered, m ∈ w.lib.created
  outside : ∀ t, t ∉ w.lib.threads → w.todo t = []

theorem World.Proper.idle_iff {w : World V M} (h : w.Proper) : w.idle = true ↔ w.Idle := by
  unfold World.idle World.Idle
  rw [List.all_eq_true]
  constructor
  · intro hi t
    by_cases ht : t ∈ w.lib.threads
    · simpa using hi t ht
    · exact h.outside t ht
  · intro hi t _
    simp [hi t]

theorem World.init_proper (topo : Topo) (mon : M → Hmonitor Thread V M) : (World.init topo mon).Proper :=
  ⟨Registry.init_sound topo mon, fun m hm => by simp [init, Registry.registered, Registry.init] at hm,
    fun _ _ => rfl⟩

theorem World.Proper.update {w : World V M} (h : w.Proper) : w.update.Proper := by
  refine ⟨h.sound, h.created, fun t ht => ?_⟩
  cases t with
  | main => exact h.outside .main ht
  | core i =>
    have hi : w.lib.topo.cores.length ≤ i := by
      by_contra hlt
      exact ht (List.mem_cons_of_mem _ (List.mem_map_of_mem (List.mem_range.mpr (not_le.mp hlt))))
    have hv : w.lib.visits i = [] := by
      unfold Registry.visits
      rw [List.getElem?_eq_none hi]
    show hmonitorThread w.lib i = []
    rw [hmonitorThread, hv]
    rfl

section Steps
variable [DecidableEq M] {w w' : World V M}

theorem World.Proper.put (h : w.Proper) {m : M} {x : Hmonitor Thread V M} (hs : SameShape (w.mon m) x)
    (events : List Event) : (w.put m x events).Proper :=
  ⟨h.sound.setMon hs.location, h.created, h.outside⟩

theorem World.Proper.hmonitorsDo {call : M → Hmonitor Thread V M → Outcome Thread V M}
    (hc : ∀ m x, SameShape x (call m x).mon) (ms : List M) {w : World V M} (h : w.Proper) :
    (World.hmonitorsDo call ms w).Proper := by
  induction ms generalizing w with
  | nil => exact h
  | cons m ms ih => exact ih (h.put (hc m (w.mon m)) _)

theorem World.Proper.commit (h : w.Proper) {t : Thread} (ht : t ∈ w.lib.threads) {m : M} {e : Effect V M}
    (hs : SameShape (w.mon m) e.mon) (ops : List (Op M)) : (w.commit t m e ops).Proper := by
  refine ⟨h.sound.setMon hs.location, h.created, fun u hu => ?_⟩
  have hut : u ≠ t := fun he => hu (he ▸ ht)
  rw [World.commit_todo_ne _ _ _ _ _ hut]
  exact h.outside u hu

theorem World.Proper.step [Double V] (h : w.Proper) {t : Thread} {a : Answer V} (hn : w.step a t = some w') :
    w'.Proper := by
  obtain ⟨op, ops, e, htodo, he, rfl⟩ := World.step_cases hn
  have ht : t ∈ w.lib.threads := by
    by_contra hout
    rw [h.outside t hout] at htodo
    cases htodo
  exact h.commit ht (Op.effect_shape he) ops

/-- A new monitor is not registered: the arrays do not see it. -/
theorem World.Proper.create (h : w.Proper) {t : Thread} (ht : t ∈ w.lib.threads) {m : M} (hm : m ∉ w.lib.created)
    (x : Hmonitor Thread V M) (ops : List (Op M)) :
    World.Proper { w with
      lib := { w.lib.setMon m x with created := m :: w.lib.created }
      todo := Function.update w.todo t ops } := by
  refine ⟨⟨h.sound.fits, h.sound.fitsAt, fun o y => ?_⟩, fun y hy => List.mem_cons_of_mem m (h.created y hy),
    fun u hu => ?_⟩
  · show y ∈ w.lib.objMonitors o ↔ y ∈ w.lib.registered ∧ ((w.lib.setMon m x).mon y).location = o
    by_cases hy : y = m
    · subst hy
      have hreg : y ∉ w.lib.registered := fun hr => hm (h.created y hr)
      exact iff_of_false (fun hy => hreg ((h.sound.mem o y).mp hy).1) fun hy => hreg hy.1
    · rw [w.lib.setMon_mon_ne x hy]
      exact h.sound.mem o y
  · have hut : u ≠ t := fun he => hu (he ▸ ht)
    show Function.update w.todo t ops u = []
    rw [Function.update_of_ne hut]
    exact h.outside u hu

theorem World.Proper.register (h : w.Proper) {m : M} {L : Registry V M} (hm : m ∈ w.lib.created)
    (hr : Registers w.lib m L) : World.Proper { w with lib := L } := by
  refine ⟨hr.sound h.sound, fun y hy => ?_, fun t ht => ?_⟩
  · show y ∈ L.created
    rw [hr.created]
    rcases List.mem_cons.mp (hr.registered.mem_iff.mp hy) with rfl | hy
    · exact hm
    · exact h.created y hy
  · have hth : L.threads = w.lib.threads := by
      unfold Registry.threads Registry.ncores
      rw [hr.topo]
    rw [hth] at ht
    exact h.outside t ht

omit [DecidableEq M] in
theorem World.Proper.call (h : w.Proper) {t : Thread} (ht : t ∈ w.lib.threads) (op : Op M) :
    World.Proper { w with todo := Function.update w.todo t [op] } := by
  refine ⟨h.sound, h.created, fun u hu => ?_⟩
  have hut : u ≠ t := fun he => hu (he ▸ ht)
  show Function.update w.todo t [op] u = []
  rw [Function.update_of_ne hut]
  exact h.outside u hu

theorem World.Proper.next [Double V] (h : w.Proper) {l : Label V M} (hn : hmonNext w l = some w') : w'.Proper := by
  cases hmonNext_cases h.sound hn with
  | refused => exact h
  | create hm ht => exact h.create ht hm _ _
  | register hm hreg => exact h.register hm hreg
  | restrict => exact ⟨⟨h.sound.fits, h.sound.fitsAt, h.sound.mem⟩, h.created, h.outside⟩
  | start => exact h.hmonitorsDo (fun _ x => hmonitorStart_shape _ _ x) _
  | stop => exact h.hmonitorsDo (fun _ x => hmonitorStop_shape _ _ x) _
  | taskset => exact h.hmonitorsDo (fun _ x => World.tasksetStop_shape _ x) _
  | call _ ht => exact h.call ht _
  | update => exact h.update
  | step hs => exact h.step hs

theorem hmonSys_proper [Double V] {ok : World V M → Label V M → Prop} (h : hmonSys.Reach Fresh ok w) : w.Proper :=
  h.invariant (by rintro _ ⟨topo, mon, rfl⟩; exact World.init_proper topo mon) fun _ _ _ hi _ hn => hi.next hn

theorem roundSys_proper [Double V] {ls : List (Thread × Answer V)} (h : w.Proper)
    (hrun : roundSys.exec w ls = some w') : w'.Proper :=
  Lts.exec_inv (I := World.Proper) (fun _ _ _ hi hn => hi.step hn) h hrun

end Steps

/-! ## Only allocated monitors are used -/

/-- A thread visits registered monitors only. -/
theorem Registry.visits_registered {L : Registry V M} (hs : L.Sound) {i : Nat} {m : M} (h : m ∈ L.visits i) :
    m ∈ L.registered := by
  unfold visits at h
  split at h
  · cases h
  · obtain ⟨o, -, hm⟩ := List.mem_flatMap.mp h
    exact ((hs.mem o m).mp hm).1

theorem Registry.Sound.childrenNamed {L : Registry V M} (hs : L.Sound) {location : Obj} {event : CString} {c : M}
    (h : c ∈ L.childrenNamed location event) : c ∈ L.registered := by
  obtain ⟨d, -, h⟩ := List.mem_flatMap.mp h
  obtain ⟨o, -, h⟩ := List.mem_flatMap.mp h
  exact ((hs.mem o c).mp (List.mem_of_mem_filter h)).1

theorem addNamedEvents_registered {L : Registry V M} (hs : L.Sound) {location : Obj} {count : List M → Nat}
    {events : List CString} {children : List M} {n : Nat}
    (h : addNamedEvents L location count events = some (children, n)) : ∀ c ∈ children, c ∈ L.registered := by
  induction events generalizing children n with
  | nil => cases h; exact fun c hc => absurd hc List.not_mem_nil
  | cons event events ih =>
    simp only [addNamedEvents] at h
    split_ifs at h
    obtain ⟨⟨cs, k⟩, hr, he⟩ := Option.map_eq_some_iff.mp h
    obtain ⟨rfl, -⟩ := Prod.mk.inj he
    intro c hc
    rcases List.mem_append.mp hc with hc | hc
    · exact hs.childrenNamed hc
    · exact ih hr c hc

/-- The children of a new monitor are registered. -/
theorem newEventset_registered {L : Registry V M} (hs : L.Sound) {location : Obj} {plugin : PerfPlugin}
    {eventset : Eventset M} {n : Nat} (h : newEventset L location plugin = some (eventset, n)) :
    ∀ c ∈ eventset.childEvents, c ∈ L.registered := by
  cases plugin with
  | leaf k => cases h; exact fun c hc => absurd hc List.not_mem_nil
  | hierarchical events | accumulate events =>
    obtain ⟨⟨cs, k⟩, hr, he⟩ := Option.map_eq_some_iff.mp h
    obtain ⟨rfl, -⟩ := Prod.mk.inj he
    exact addNamedEvents_registered hs hr

/-- The children of allocated monitors are allocated, and the threads work on allocated monitors only. -/
structure World.Live (w : World V M) : Prop where
  children : ∀ m ∈ w.lib.created, ∀ c ∈ (w.mon m).eventset.childEvents, c ∈ w.lib.created
  targets : ∀ t, ∀ op ∈ w.todo t, op.target ∈ w.lib.created

theorem Pushes.targets {mon : M → Hmonitor Thread V M} {op : Op M} {ops : List (Op M)} {C : M → Prop}
    (h : Pushes mon op ops) (ht : C op.target) (hc : ∀ c ∈ (mon op.target).eventset.childEvents, C c) :
    ∀ o ∈ ops, C o.target := by
  intro o ho
  cases h with
  | none => cases ho
  | read m hops =>
    rcases List.mem_append.mp ho with ho | ho
    · cases hops o ho with
      | lockChild hm | read hm | reduce hm => exact hc _ hm
      | copySamples | copyEvents | addEvents => exact ht
    · rw [List.mem_singleton.mp ho]
      exact ht
  | locked c =>
    rw [List.mem_cons, List.mem_cons, List.mem_singleton] at ho
    rcases ho with rfl | rfl | rfl <;> exact ht
  | waits c | unlock c => rw [List.mem_singleton.mp ho]; exact ht
  | reset m =>
    obtain ⟨c, hm, rfl⟩ := List.mem_map.mp ho
    exact hc c hm

section Live
variable [DecidableEq M] {w w' : World V M}

theorem World.Live.put (h : w.Live) {m : M} {x : Hmonitor Thread V M} (hs : SameShape (w.mon m) x)
    (events : List Event) : (w.put m x events).Live := by
  refine ⟨fun y hy c hc => ?_, h.targets⟩
  by_cases hym : y = m
  · subst hym
    have he : ((w.put y x events).mon y).eventset = (w.mon y).eventset := by
      show (Function.update w.lib.mon y x y).eventset = _
      rw [Function.update_self]
      exact hs.eventset
    exact h.children y hy c (he ▸ hc)
  · have he : (w.put m x events).mon y = w.mon y := Function.update_of_ne hym ..
    exact h.children y hy c (he ▸ hc)

theorem World.Live.hmonitorsDo {call : M → Hmonitor Thread V M → Outcome Thread V M}
    (hc : ∀ m x, SameShape x (call m x).mon) (ms : List M) {w : World V M} (h : w.Live) :
    (World.hmonitorsDo call ms w).Live := by
  induction ms generalizing w with
  | nil => exact h
  | cons m ms ih => exact ih (h.put (hc m (w.mon m)) _)

theorem World.Live.create [Double V] (hp : w.Proper) (h : w.Live) {t : Thread} {now : Int} {m : M} {r : Request V}
    {x : Hmonitor Thread V M} (hx : w.lib.newHmonitor t now r = some x) : World.Live { w with
      lib := { w.lib.setMon m x with created := m :: w.lib.created }
      todo := Function.update w.todo t (x.eventset.childEvents.map .reset) } := by
  have hch : ∀ c ∈ x.eventset.childEvents, c ∈ m :: w.lib.created := by
    obtain ⟨⟨ev, n⟩, he, hx⟩ := Option.bind_eq_some_iff.mp hx
    obtain ⟨-, -, -, hev⟩ := newHmonitor_fresh hx
    rw [hev]
    exact fun c hc => List.mem_cons_of_mem m (hp.created c (newEventset_registered hp.sound he c hc))
  refine ⟨fun y hy c hcy => ?_, fun u op hop => ?_⟩
  · by_cases hym : y = m
    · subst hym
      rw [show (World.mon _ y) = x from Function.update_self ..] at hcy
      exact hch c hcy
    · rw [show (World.mon _ y) = w.mon y from Function.update_of_ne hym ..] at hcy
      exact List.mem_cons_of_mem m (h.children y ((List.mem_cons.mp hy).resolve_left hym) c hcy)
  · by_cases hut : u = t
    · subst hut
      rw [show (World.todo _ u) = _ from Function.update_self ..] at hop
      obtain ⟨c, hcx, rfl⟩ := List.mem_map.mp hop
      exact hch c hcx
    · rw [show (World.todo _ u) = w.todo u from Function.update_of_ne hut ..] at hop
      exact List.mem_cons_of_mem m (h.targets u op hop)

theorem World.Live.register (h : w.Live) {m : M} {L : Registry V M} (hr : Registers w.lib m L) :
    World.Live { w with lib := L } := by
  obtain ⟨display, owner, hmon⟩ := hr.mon
  have hev : ∀ y, (L.mon y).eventset = (w.mon y).eventset := by
    intro y
    rw [hmon]
    by_cases hy : y = m
    · rw [hy, Function.update_self]
    · rw [Function.update_of_ne hy]
  refine ⟨fun y hy c hcy => ?_, fun u o ho => hr.created.symm ▸ h.targets u o ho⟩
  have hcy' : c ∈ (w.mon y).eventset.childEvents := hev y ▸ hcy
  exact hr.created.symm ▸ h.children y (hr.created ▸ hy) c hcy'

omit [DecidableEq M] in
theorem World.Live.call (h : w.Live) {t : Thread} {op : Op M} (hop : op.target ∈ w.lib.created) :
    World.Live { w with todo := Function.update w.todo t [op] } := by
  refine ⟨h.children, (Function.forall_update_iff w.todo fun _ ops => ∀ o ∈ ops, o.target ∈ w.lib.created).mpr
    ⟨fun o ho => ?_, fun u _ => h.targets u⟩⟩
  rw [List.mem_singleton.mp ho]
  exact hop

omit [DecidableEq M] in
theorem World.Live.update (hp : w.Proper) (h : w.Live) : w.update.Live := by
  refine ⟨h.children, fun u o ho => ?_⟩
  cases u with
  | main => exact h.targets .main o ho
  | core i =>
    have hv : ∀ x ∈ w.lib.visits i, x ∈ w.lib.created := fun x hx =>
      hp.created x (Registry.visits_registered hp.sound hx)
    simp only [World.update, hmonitorThread, collect, List.mem_append, List.mem_map] at ho
    rcases ho with ((⟨x, hx, rfl⟩ | ⟨x, hx, rfl⟩) | ⟨x, hx, rfl⟩) | ⟨x, hx, rfl⟩ <;> exact hv x hx

theorem World.Live.step [Double V] (h : w.Live) {t : Thread} {a : Answer V} (hn : w.step a t = some w') :
    w'.Live := by
  obtain ⟨op, ops, e, htodo, he, rfl⟩ := World.step_cases hn
  have ht : op.target ∈ w.lib.created := h.targets t op (by rw [htodo]; exact List.mem_cons_self)
  have hput := h.put (Op.effect_shape he) e.events
  refine ⟨hput.children, w.commit_todo_all (Q := fun l => ∀ o ∈ l, o.target ∈ w.lib.created) t _ e ops h.targets
    fun o ho => ?_⟩
  rcases List.mem_append.mp ho with ho | ho
  · exact (Op.effect_pushes he).targets ht (h.children _ ht) o ho
  · exact h.targets t o (by rw [htodo]; exact List.mem_cons_of_mem op ho)

theorem World.Live.next [Double V] {l : Label V M} (hp : w.Proper) (h : w.Live) (hn : hmonNext w l = some w') :
    w'.Live := by
  cases hmonNext_cases hp.sound hn with
  | refused => exact h
  | create _ _ hx => exact World.Live.create hp h hx
  | register _ hreg => exact h.register hreg
  | restrict => exact ⟨h.children, h.targets⟩
  | start => exact h.hmonitorsDo (fun _ x => hmonitorStart_shape _ _ x) _
  | stop => exact h.hmonitorsDo (fun _ x => hmonitorStop_shape _ _ x) _
  | taskset => exact h.hmonitorsDo (fun _ x => World.tasksetStop_shape _ x) _
  | call hop => exact h.call hop
  | update => exact World.Live.update hp h
  | step hs => exact h.step hs

theorem hmonSys_live [Double V] {ok : World V M → Label V M → Prop} (h : hmonSys.Reach Fresh ok w) : w.Live := by
  refine Lts.Reach.invariant_of (J := World.Proper) (fun _ => hmonSys_proper) ?_
    (fun _ _ _ hp hi _ hn => hi.next hp hn) h
  rintro _ ⟨topo, mon, rfl⟩
  exact ⟨nofun, nofun⟩

end Live

/-! ## Every monitor is visited once in a pass -/

/-- The objects of the topology are distinct. -/
def FreshTree (w : World V M) : Prop := ∃ topo mon, topo.objs.Nodup ∧ w = World.init topo mon

/-- The label does not register a monitor again. -/
def registersOnce [DecidableEq M] (w : World V M) : Label V M → Bool
  | .register m _ => decide (m ∉ w.lib.registered)
  | _ => true

/-- A monitor is registered only once. -/
abbrev RegistersOnce [DecidableEq M] (w : World V M) (l : Label V M) : Prop := registersOnce w l = true

/-- The topology is a tree of distinct objects and no object's array holds a monitor twice. -/
structure World.Once (w : World V M) : Prop where
  objs : w.lib.topo.objs.Nodup
  monitors : ∀ o, (w.lib.objMonitors o).Nodup

theorem Registry.visits_nodup {L : Registry V M} (hs : L.Sound) (ho : L.topo.objs.Nodup)
    (hm : ∀ o, (L.objMonitors o).Nodup) (i : Nat) : (L.visits i).Nodup := by
  unfold visits
  cases hc : L.topo.cores[i]? with
  | none => exact List.nodup_nil
  | some core =>
    have hloc : core ∈ L.topo.locs [] := List.mem_of_mem_filter (List.mem_of_getElem? hc)
    unfold hmonUpdateLocation
    refine List.nodup_flatMap.mpr ⟨fun o _ => hm o, (Topo.locs_nodup ho hloc).imp fun {o o'} hne => ?_⟩
    intro m h h'
    exact hne (((hs.mem o m).mp h).2.symm.trans ((hs.mem o' m).mp h').2)

section Once
variable [DecidableEq M] {w w' : World V M}

/-- The loops over all monitors leave the arrays alone. -/
theorem hmonitorsDo_arrays (call : M → Hmonitor Thread V M → Outcome Thread V M) (ms : List M) (w : World V M) :
    (World.hmonitorsDo call ms w).lib.topo = w.lib.topo ∧
      (World.hmonitorsDo call ms w).lib.userdata = w.lib.userdata := by
  induction ms generalizing w with
  | nil => exact ⟨rfl, rfl⟩
  | cons m ms ih => exact ih _

omit [DecidableEq M] in
/-- The same topology and arrays. -/
theorem World.Once.of_same (h : w.Once) (ha : w'.lib.topo = w.lib.topo ∧ w'.lib.userdata = w.lib.userdata) :
    w'.Once := by
  refine ⟨ha.1.symm ▸ h.objs, fun o => ?_⟩
  unfold Registry.objMonitors
  rw [ha.2]
  exact h.monitors o

theorem World.Once.register (h : w.Once) {m : M} {L : Registry V M} (hr : Registers w.lib m L)
    (hm : ∀ o, m ∉ w.lib.objMonitors o) : World.Once { w with lib := L } := by
  refine ⟨hr.topo.symm ▸ h.objs, fun o => (hr.objMonitors o).nodup_iff.mpr ?_⟩
  by_cases ho : o = (w.lib.mon m).location
  · rw [if_pos ho]
    exact (h.monitors o).cons (hm o)
  · rw [if_neg ho]
    exact h.monitors o

theorem World.Once.next [Double V] {l : Label V M} (hp : w.Proper) (h : w.Once) (hok : RegistersOnce w l)
    (hn : hmonNext w l = some w') : w'.Once := by
  cases hmonNext_cases hp.sound hn with
  | refused => exact h
  | register _ hreg => exact h.register hreg fun o hmem => of_decide_eq_true hok ((hp.sound.mem o _).mp hmem).1
  | create | restrict | call | update => exact h.of_same ⟨rfl, rfl⟩
  | start | stop | taskset => exact h.of_same (hmonitorsDo_arrays _ _ _)
  | step hs =>
    obtain ⟨op, ops, e, -, -, rfl⟩ := World.step_cases hs
    exact h.of_same ⟨rfl, rfl⟩

theorem hmonSys_once [Double V] (h : hmonSys.Reach FreshTree RegistersOnce w) : w.Once := by
  refine Lts.Reach.invariant_of (J := World.Proper) (fun w hr => ?_) ?_ (fun _ _ _ hp hi hok hn => hi.next hp hok hn) h
  · exact hmonSys_proper (hr.mono (fun _ ⟨topo, mon, _, hw⟩ => ⟨topo, mon, hw⟩) fun _ _ hok => hok)
  · rintro _ ⟨topo, mon, ht, rfl⟩
    exact ⟨ht, fun _ => List.nodup_nil⟩

theorem visits_nodup [Double V] (h : hmonSys.Reach FreshTree RegistersOnce w) (i : Nat) : (w.lib.visits i).Nodup := by
  have hp := hmonSys_proper (h.mono (fun _ ⟨topo, mon, _, hw⟩ => ⟨topo, mon, hw⟩) fun _ _ hok => hok)
  have ho := hmonSys_once h
  exact Registry.visits_nodup hp.sound ho.objs ho.monitors i

end Once

/-! ## Runs on two cores -/

namespace Demo

/-- The plugin succeeds and reads nothing. -/
def ok : Answer ℚ := ⟨true, [], 0⟩

def leaf (id : CString) (location : Obj) : Request ℚ := ⟨id, location, .leaf 1, 1, none, 0, none, fun _ => 0⟩

def hierarchical (id : CString) (location : Obj) (events : List CString) : Request ℚ :=
  ⟨id, location, .hierarchical events, 1, none, 0, none, fun _ => 0⟩

def init : World ℚ ℕ := World.init Topo.twoCores coreMonitors

theorem init_fresh : Fresh init := ⟨_, _, rfl⟩

theorem init_freshTree : FreshTree init := ⟨_, _, by decide, rfl⟩

/-- One operation of each listed core thread, in this order. -/
def cores (is : List ℕ) : List (Thread × Answer ℚ) := is.map fun i => (.core i, ok)

/-- The same as steps of the whole library. -/
def steps (is : List ℕ) : List (Label ℚ ℕ) := is.map fun i => .step (.core i) ok

end Demo
end Hmon
