import Hmon.Harray
import Hmon.Monitor.Basic

/-!
# The registry of monitors (`synchronize.c`)

* `Thread` : the main thread and one thread per core;
* `Registry` : the globals of `synchronize.c` (topology, sorted array of monitors, allowed cpuset), the arrays
  that hang off the topology as `userdata`, and the monitors themselves;
* `hmonCompare`, `hmonRegisterHmonitor`, `hmonitorUnregisterLocation`, `hmonRestrict` : the functions that change
  the arrays;
* `Registry.childrenNamed`, `newEventset` : how the chained plugins find their child monitors by name;
* `Registry.Sound` : the arrays hold the same monitors, each on its object.
-/

namespace Hmon

/-- The main thread, and `threads[i]`, the thread of core `i`. -/
inductive Thread
  | main
  | core (i : Nat)
  deriving DecidableEq

/-- The state of the library. `M` are pointers to monitors and `created` those that were allocated. -/
structure Registry (V M : Type) where
  topo : Topo
  mon : M → Hmonitor Thread V M
  created : List M
  monitors : Harray M
  userdata : Obj → Option (Harray M)
  allowed : Cpuset

variable {V M : Type}

def hmonCompare (mon : M → Hmonitor Thread V M) (x y : M) : Int :=
  let a := mon x
  let b := mon y
  if b.location.depth < a.location.depth then -1
  else if a.location.depth < b.location.depth then 1
  else if a.location.logicalIndex < b.location.logicalIndex then -1
  else if b.location.logicalIndex < a.location.logicalIndex then 1
  else if a.display ≠ 0 ∧ b.display = 0 then -1
  else if a.display = 0 ∧ b.display ≠ 0 then 1
  else if a.output.isSome ∧ ¬ b.output.isSome then -1
  else if ¬ a.output.isSome ∧ b.output.isSome then 1
  else strcmp a.id b.id

namespace Registry

/-- `hmon_lib_init` on a topology, before any monitor exists. -/
def init (topo : Topo) (mon : M → Hmonitor Thread V M) : Registry V M where
  topo := topo
  mon := mon
  created := []
  monitors := newHarray 32
  userdata := fun _ => none
  allowed := topo.completeCpuset

/-- The registered monitors, in the order of the array. -/
def registered (L : Registry V M) : List M := L.monitors.toList

/-- The monitors of an object, in the order of its array. -/
def objMonitors (L : Registry V M) (o : Obj) : List M :=
  match L.userdata o with
  | none => []
  | some a => a.toList

def setMon [DecidableEq M] (L : Registry V M) (m : M) (h : Hmonitor Thread V M) : Registry V M :=
  { L with mon := Function.update L.mon m h }

/-! ## The chained plugins' search -/

/-- The walk of `hmonitor_eventset_add_named_event`: the monitors named `event` inside the location, from the
location's depth downwards. The depth is `unsigned` there: a negative one is above all. -/
def childrenNamed (L : Registry V M) (location : Obj) (event : CString) : List M :=
  ((List.range L.topo.topologyDepth).filter fun d => location.depth % 2 ^ 32 ≤ (d : Int)).flatMap fun d =>
    (L.topo.insideCpusetByDepth location.cpuset d).flatMap fun o =>
      (L.objMonitors o).filter fun m => strcmp (L.mon m).id event = 0

end Registry

/-- The performance plugin that `new_hmonitor` is asked for: one that adds a number of events, or a chained one
with the names of its children. -/
inductive PerfPlugin
  | leaf (addedEvents : Nat)
  | hierarchical (events : List CString)
  | accumulate (events : List CString)

/-- `hmonitor_eventset_add_named_event` on each name: the children found and the number of added events, `none`
when one call returns `-1`. `count` is the number of events that the children of one name add. -/
def addNamedEvents (L : Registry V M) (location : Obj) (count : List M → Nat) :
    List CString → Option (List M × Nat)
  | [] => some ([], 0)
  | event :: events =>
    let children := L.childrenNamed location event
    let n := u32 (count children)
    if n = 0 ∨ n = 2 ^ 32 - 1 then none
    else (addNamedEvents L location count events).map fun r => (children ++ r.1, u32 (n + r.2))

/-- The eventset of a new monitor and the number of its events: a hierarchical monitor has all samples of its
children, an accumulating one as many as the last child of a name has. `new_hmonitor` ends the program for the accumulate
plugin, which has no `hmonitor_eventset_init`: its eventsets are those that its other functions are called with. -/
def newEventset (L : Registry V M) (location : Obj) : PerfPlugin → Option (Eventset M × Nat)
  | .leaf n => some (.leaf, n)
  | .hierarchical events =>
    (addNamedEvents L location (fun cs => cs.foldl (fun n c => n + (L.mon c).nSamples) 0) events).map
      fun r => (.hierarchical r.1, r.2)
  | .accumulate events =>
    (addNamedEvents L location (fun cs => (cs.getLast?.map fun c => (L.mon c).nSamples).getD 0) events).map
      fun r => (.accumulate r.1, r.2)

section Update
variable [DecidableEq M]

/-! ## Registration -/

/-- The owner that registration gives: the thread of a core for its core and its processing units. -/
def registeredOwner (L : Registry V M) (m : M) : Except Fault Thread :=
  match (L.mon m).location.type with
  | .core => .ok (.core (L.mon m).location.logicalIndex)
  | .pu =>
    match L.topo.parent (L.mon m).location with
    | none => .error .nullDeref
    | some p => .ok (.core p.logicalIndex)
  | _ => .ok (L.mon m).owner

/-- `hmon_register_hmonitor` on a monitor that is not NULL. -/
def hmonRegisterHmonitor (L : Registry V M) (m : M) (display : Nat) : Except Fault (Int × Registry V M) :=
  if ¬ (L.mon m).location.cpuset ⊆ L.allowed then .ok (-1, L)
  else do
    let L := L.setMon m { L.mon m with display := display }
    let (_, monitors) ← harrayInsertSorted L.monitors m (hmonCompare L.mon)
    let location := (L.mon m).location
    let array := (L.userdata location).getD (newHarray 4)
    let owner ← registeredOwner L m
    let L := L.setMon m { L.mon m with owner := owner }
    let (_, array) ← harrayInsertSorted array m (hmonCompare L.mon)
    .ok (0, { L with monitors := monitors, userdata := Function.update L.userdata location (some array) })

end Update

/-! ## Restriction -/

section Restrict

/-- The loop of `hmonitor_unregister_location` over the array of the object. -/
def unregisterFrom (mon : M → Hmonitor Thread V M) (array : Harray M) :
    List Nat → Harray M → Except Fault (Harray M)
  | [], monitors => .ok monitors
  | i :: is, monitors =>
    match harrayGet array i with
    | none => .error .nullDeref
    | some m => do
      let index ← harrayFind monitors m (hmonCompare mon)
      unregisterFrom mon array is (harrayRemove monitors index).2

def hmonitorUnregisterLocation (L : Registry V M) (location : Obj) : Except Fault (Registry V M) :=
  match L.userdata location with
  | none => .ok L
  | some array => do
    let monitors ← unregisterFrom L.mon array (List.range array.length) L.monitors
    .ok { L with monitors := monitors, userdata := Function.update L.userdata location none }

/-- The `while(nobj--)` loop of `hmon_restrict` at one depth. -/
def restrictDepth (domain : Cpuset) (depth : Nat) : Nat → Registry V M → Except Fault (Registry V M)
  | 0, L => .ok L
  | nobj + 1, L =>
    match L.topo.objInsideCpuset domain depth nobj with
    | none => restrictDepth domain depth nobj L
    | some o => do
      let L ← hmonitorUnregisterLocation L o
      restrictDepth domain depth nobj L

/-- The loop of `hmon_restrict` over the depths. -/
def restrictDepths (domain : Cpuset) : List Nat → Registry V M → Except Fault (Registry V M)
  | [], L => .ok L
  | d :: ds, L => do
    let L ← restrictDepth domain d (L.topo.nbobjsInsideCpuset domain d) L
    restrictDepths domain ds L

/-- `hmon_restrict` on a bitmap that is not NULL and not `allowed_cpuset` itself; the bitmap is changed in
place and returned. -/
def hmonRestrict (L : Registry V M) (domain : Cpuset) : Except Fault (Registry V M × Cpuset) :=
  if ¬ domain ⊆ L.allowed then .ok (L, domain)
  else do
    let L := { L with allowed := L.allowed ∩ domain }
    let domain := domain \ L.allowed
    let L ← restrictDepths domain (List.range L.topo.topologyDepth) L
    .ok (L, domain)

end Restrict

/-! ## The arrays agree -/

section Sound
variable [DecidableEq M]

namespace Registry

/-- The arrays fit their allocation, an object's array holds the registered monitors located on it, and these
were allocated. -/
structure Sound (L : Registry V M) : Prop where
  fits : L.monitors.Fits
  fitsAt : ∀ o a, L.userdata o = some a → a.Fits
  mem : ∀ o m, m ∈ L.objMonitors o ↔ m ∈ L.registered ∧ (L.mon m).location = o

omit [DecidableEq M] in
theorem init_sound (topo : Topo) (mon : M → Hmonitor Thread V M) : (init topo mon).Sound := by
  refine ⟨newHarray_fits 32, fun _ _ => nofun, fun o m => ?_⟩
  simp [objMonitors, registered, init]

@[simp] theorem setMon_registered (L : Registry V M) (m : M) (h : Hmonitor Thread V M) :
    (L.setMon m h).registered = L.registered := rfl

@[simp] theorem setMon_objMonitors (L : Registry V M) (m : M) (h : Hmonitor Thread V M) (o : Obj) :
    (L.setMon m h).objMonitors o = L.objMonitors o := rfl

@[simp] theorem setMon_mon_self (L : Registry V M) (m : M) (h : Hmonitor Thread V M) : (L.setMon m h).mon m = h :=
  Function.update_self ..

theorem setMon_mon_ne (L : Registry V M) {m x : M} (h : Hmonitor Thread V M) (hx : x ≠ m) :
    (L.setMon m h).mon x = L.mon x := Function.update_of_ne hx ..

theorem setMon_mon_location (L : Registry V M) {m : M} {h : Hmonitor Thread V M}
    (hl : h.location = (L.mon m).location) (x : M) : ((L.setMon m h).mon x).location = (L.mon x).location := by
  by_cases hx : x = m
  · rw [hx, setMon_mon_self]
    exact hl
  · rw [setMon_mon_ne L h hx]

/-- The arrays do not depend on a monitor's contents other than its location. -/
theorem Sound.setMon {L : Registry V M} (hs : L.Sound) {m : M} {h : Hmonitor Thread V M}
    (hl : h.location = (L.mon m).location) : (L.setMon m h).Sound := by
  refine ⟨hs.fits, hs.fitsAt, fun o x => ?_⟩
  rw [setMon_registered, setMon_objMonitors, setMon_mon_location L hl]
  exact hs.mem o x

end Registry

/-- What a successful registration does. -/
structure Registers (L : Registry V M) (m : M) (L' : Registry V M) : Prop where
  inside : (L.mon m).location.cpuset ⊆ L.allowed
  mon : ∃ display owner, L'.mon = Function.update L.mon m { L.mon m with display := display, owner := owner }
  registered : L'.registered.Perm (m :: L.registered)
  objMonitors : ∀ o, (L'.objMonitors o).Perm
    (if o = (L.mon m).location then m :: L.objMonitors o else L.objMonitors o)
  fits : L'.monitors.Fits ∧ ∀ o a, L'.userdata o = some a → a.Fits
  topo : L'.topo = L.topo
  created : L'.created = L.created
  allowed : L'.allowed = L.allowed

/-- The array that a registration inserts into: the array of the object, or a new one. -/
def Registry.arrayAt (L : Registry V M) (o : Obj) : Harray M := (L.userdata o).getD (newHarray 4)

/-- A registration that returns 0 inserts the monitor into both arrays. -/
structure Inserts (L : Registry V M) (m : M) (L' : Registry V M) : Prop where
  inside : (L.mon m).location.cpuset ⊆ L.allowed
  mon : ∃ display owner, L'.mon = Function.update L.mon m { L.mon m with display := display, owner := owner }
  monitors : ∃ compare k, harrayInsertSorted L.monitors m compare = .ok (k, L'.monitors)
  array : ∃ compare k array, harrayInsertSorted (L.arrayAt (L.mon m).location) m compare = .ok (k, array) ∧
    L'.userdata = Function.update L.userdata (L.mon m).location (some array)
  topo : L'.topo = L.topo
  created : L'.created = L.created
  allowed : L'.allowed = L.allowed

theorem register_inserts {L L' : Registry V M} {m : M} {display : Nat} {r : Int}
    (h : hmonRegisterHmonitor L m display = .ok (r, L')) : r = -1 ∧ L' = L ∨ r = 0 ∧ Inserts L m L' := by
  unfold hmonRegisterHmonitor at h
  by_cases hin : (L.mon m).location.cpuset ⊆ L.allowed
  · rw [if_neg (not_not_intro hin)] at h
    refine Or.inr ?_
    simp only [bind, Except.bind] at h
    split at h
    · cases h
    · rename_i res hmonitors
      obtain ⟨k, monitors⟩ := res
      split at h
      · cases h
      · rename_i owner howner
        split at h
        · cases h
        · rename_i res' harray
          obtain ⟨k', array⟩ := res'
          simp only [Except.ok.injEq, Prod.mk.injEq] at h
          obtain ⟨rfl, rfl⟩ := h
          have hloc : ((L.setMon m { L.mon m with display := display }).mon m).location = (L.mon m).location := by
            rw [Registry.setMon_mon_self]
          rw [hloc] at harray ⊢
          refine ⟨rfl, hin, ⟨display, owner, ?_⟩, ⟨_, k, hmonitors⟩, ⟨_, k', array, harray, rfl⟩, rfl, rfl, rfl⟩
          show Function.update (Function.update L.mon m _) m _ = _
          rw [Function.update_idem, Registry.setMon_mon_self]
  · rw [if_pos hin, Except.ok.injEq, Prod.mk.injEq] at h
    exact Or.inl ⟨h.1.symm, h.2.symm⟩

omit [DecidableEq M] in
theorem Registry.Sound.arrayAt_fits {L : Registry V M} (hs : L.Sound) (o : Obj) : (L.arrayAt o).Fits := by
  unfold Registry.arrayAt
  cases hu : L.userdata o with
  | none => exact newHarray_fits 4
  | some a => exact hs.fitsAt _ a hu

omit [DecidableEq M] in
theorem Registry.arrayAt_toList (L : Registry V M) (o : Obj) : (L.arrayAt o).toList = L.objMonitors o := by
  unfold Registry.arrayAt Registry.objMonitors
  cases L.userdata o with
  | none => exact newHarray_toList 4
  | some a => rfl

theorem Inserts.registers {L L' : Registry V M} {m : M} (hs : L.Sound) (h : Inserts L m L') : Registers L m L' := by
  obtain ⟨_, k, hmonitors⟩ := h.monitors
  obtain ⟨_, k', array, harray, hu⟩ := h.array
  have hfit := hs.arrayAt_fits (L.mon m).location
  refine ⟨h.inside, h.mon, harrayInsertSorted_perm hs.fits hmonitors, fun o => ?_,
    ⟨(harrayInsertSorted_spec hs.fits hmonitors).2, fun o a ha => ?_⟩, h.topo, h.created, h.allowed⟩
  · simp only [Registry.objMonitors, hu]
    by_cases ho : o = (L.mon m).location
    · subst ho
      rw [if_pos rfl, Function.update_self]
      have hp := harrayInsertSorted_perm hfit harray
      rwa [Registry.arrayAt_toList] at hp
    · rw [if_neg ho, Function.update_of_ne ho]
  · rw [hu] at ha
    by_cases ho : o = (L.mon m).location
    · subst ho
      rw [Function.update_self, Option.some.injEq] at ha
      subst ha
      exact (harrayInsertSorted_spec hfit harray).2
    · rw [Function.update_of_ne ho] at ha
      exact hs.fitsAt o a ha

theorem register_cases {L L' : Registry V M} {m : M} {display : Nat} {r : Int} (hs : L.Sound)
    (h : hmonRegisterHmonitor L m display = .ok (r, L')) : r = -1 ∧ L' = L ∨ r = 0 ∧ Registers L m L' :=
  (register_inserts h).imp_right fun ⟨hr, hi⟩ => ⟨hr, hi.registers hs⟩

theorem Registers.sound {L L' : Registry V M} {m : M} (hs : L.Sound) (h : Registers L m L') : L'.Sound := by
  refine ⟨h.fits.1, h.fits.2, fun o x => ?_⟩
  obtain ⟨display, owner, hmon⟩ := h.mon
  have hloc : (L'.mon x).location = (L.mon x).location := by
    rw [hmon]
    exact L.setMon_mon_location (m := m) (h := { L.mon m with display := display, owner := owner }) rfl x
  rw [(h.objMonitors o).mem_iff, h.registered.mem_iff, hloc, List.mem_cons]
  by_cases ho : o = (L.mon m).location
  · rw [if_pos ho, List.mem_cons, hs.mem]
    constructor
    · rintro (rfl | ⟨hx, hl⟩)
      · exact ⟨Or.inl rfl, ho.symm⟩
      · exact ⟨Or.inr hx, hl⟩
    · rintro ⟨rfl | hx, hl⟩
      · exact Or.inl rfl
      · exact Or.inr ⟨hx, hl⟩
  · rw [if_neg ho, hs.mem]
    constructor
    · rintro ⟨hx, hl⟩
      exact ⟨Or.inr hx, hl⟩
    · rintro ⟨rfl | hx, hl⟩
      · exact absurd hl.symm ho
      · exact ⟨hx, hl⟩

end Sound
end Hmon
