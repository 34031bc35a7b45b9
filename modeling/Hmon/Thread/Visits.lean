import Hmon.Restrict
import Hmon.Thread.Round

/-!
# Which monitors the core threads visit (`hmon_update_location`)

* `updateBelow`, `updateAbove`, `updateLocation` : the recursion, down with one pair of flags and up with the other;
* `Hwloc2` : what hwloc 2 promises of a topology; `covered` : every normal object is below or above a core;
* `Matched` : the array of an object holds the registered monitors of the object, each as often;
* `visited_iff` : **a registered monitor is visited, and as often as it should be, exactly when its object is a normal
  one and it was registered once**; `numa_not_visited` : the monitor of a NUMA node is not.
-/

namespace Hmon
open Lib

variable {V M : Type}

/-! ## The recursion -/

section Update
variable (L : Registry V M)

mutual
/-- `hmon_update_location(location, 1, 0, update)`: the monitors that `update` is called on. -/
def updateBelow : Topo → List M
  | .node o _ cs => L.objMonitors o ++ updateChildren cs
/-- The loop over `location->children`. -/
def updateChildren : List Topo → List M
  | [] => []
  | t :: ts => updateBelow t ++ updateChildren ts
end

/-- `hmon_update_location(location, 0, 1, update)` on the nearest of some parents. -/
def updateAbove : List Obj → List M
  | [] => []
  | o :: os => L.objMonitors o ++ updateAbove os

/-- `hmon_update_location(location, recurse_down, recurse_up, update)` -/
def updateLocation (location : Loc) (recurseDown recurseUp : Bool) : List M :=
  L.objMonitors location.here.obj ++ (if recurseDown then updateChildren L location.here.children else []) ++
    if recurseUp then updateAbove L location.above else []

mutual
theorem updateBelow_eq : ∀ t : Topo, updateBelow L t = t.objs.flatMap L.objMonitors
  | .node o _ cs => by rw [updateBelow, Topo.objs, List.flatMap_cons, updateChildren_eq cs]
theorem updateChildren_eq : ∀ ts : List Topo, updateChildren L ts = (Topo.objsAll ts).flatMap L.objMonitors
  | [] => rfl
  | t :: ts => by rw [updateChildren, Topo.objsAll, List.flatMap_append, updateBelow_eq t, updateChildren_eq ts]
end

theorem updateAbove_eq (os : List Obj) : updateAbove L os = os.flatMap L.objMonitors := by
  induction os with
  | nil => rfl
  | cons o os ih => rw [updateAbove, List.flatMap_cons, ih]

/-- From a core the recursion visits the core, what is below it, and its parents. -/
theorem updateLocation_core (core : Loc) : updateLocation L core true true = hmonUpdateLocation L core := by
  obtain ⟨⟨o, mem, cs⟩, above⟩ := core
  unfold updateLocation hmonUpdateLocation
  rw [if_pos rfl, if_pos rfl, updateChildren_eq, updateAbove_eq, List.flatMap_append]
  rfl

end Update

/-! ## The cores cover the normal objects -/

/-- What hwloc 2 promises: the objects are distinct, the leaves of the normal tree are processing units, and every
processing unit lies below a core. -/
structure Hwloc2 (topo : Topo) : Prop where
  distinct : topo.objs.Nodup
  leaves : ∀ l ∈ topo.locs [], l.here.children = [] → l.here.obj.type = .pu
  puBelowCore : ∀ l ∈ topo.locs [], l.here.obj.type = .pu → ∃ c ∈ l.above, c.type = .core

/-- The objects that the thread of a core gets to. -/
def Loc.reached (core : Loc) : List Obj := core.here.objs ++ core.above

/-- A core among the places gets to the object. -/
def Covers (places : List Loc) (o : Obj) : Prop := ∃ core ∈ places, core.here.obj.type = .core ∧ o ∈ core.reached

theorem Covers.mono {places places' : List Loc} {o : Obj} (h : Covers places o) (hs : places ⊆ places') :
    Covers places' o := by
  obtain ⟨core, hcore, hrest⟩ := h
  exact ⟨core, hs hcore, hrest⟩

namespace Topo

mutual
/-- The parents of a tree stay above every place in it. -/
theorem above_of_locs (above : List Obj) : ∀ (t : Topo), ∀ l ∈ t.locs above, above <:+ l.above
  | node o mem cs, l, hl => by
    rw [locs, List.mem_cons] at hl
    rcases hl with rfl | hl
    · exact List.suffix_rfl
    · exact (List.suffix_cons o above).trans (above_of_locsAll (o :: above) cs l hl)
theorem above_of_locsAll (above : List Obj) : ∀ (ts : List Topo), ∀ l ∈ locsAll above ts, above <:+ l.above
  | [], l, hl => absurd hl List.not_mem_nil
  | t :: ts, l, hl => by
    rw [locsAll, List.mem_append] at hl
    rcases hl with hl | hl
    · exact above_of_locs above t l hl
    · exact above_of_locsAll above ts l hl
end

/-- The processing units of some places, which are their leaves, lie below cores. -/
structure CoresAbove (places : List Loc) : Prop where
  leaves : ∀ l ∈ places, l.here.children = [] → l.here.obj.type = .pu
  cores : ∀ l ∈ places, l.here.obj.type = .pu → ∃ c ∈ l.above, c.type = .core

theorem CoresAbove.mono {places places' : List Loc} (h : CoresAbove places') (hs : places ⊆ places') :
    CoresAbove places :=
  ⟨fun l hl => h.leaves l (hs hl), fun l hl => h.cores l (hs hl)⟩

mutual
/-- A tree that is not below a core has cores, and they get to all its objects. -/
theorem covered (above : List Obj) : ∀ t : Topo, CoresAbove (t.locs above) → (∀ c ∈ above, c.type ≠ .core) →
    (∃ core ∈ t.locs above, core.here.obj.type = .core) ∧ ∀ o ∈ t.objs, Covers (t.locs above) o
  | node o mem cs, h, habove => by
    rw [locs] at h ⊢
    by_cases hcore : o.type = .core
    · exact ⟨⟨_, List.mem_cons_self, hcore⟩, fun o' ho' => ⟨_, List.mem_cons_self, hcore, List.mem_append_left _ ho'⟩⟩
    · have hsub : locsAll (o :: above) cs ⊆ ⟨node o mem cs, above⟩ :: locsAll (o :: above) cs :=
        List.subset_cons_self ..
      have hno : ∀ c ∈ o :: above, c.type ≠ .core := List.forall_mem_cons.mpr ⟨hcore, habove⟩
      have hne : cs ≠ [] := by
        intro hnil
        obtain ⟨c, hc, hct⟩ := h.cores _ List.mem_cons_self (h.leaves _ List.mem_cons_self hnil)
        exact habove c hc hct
      obtain ⟨hsome, hall⟩ := coveredAll (o :: above) cs (h.mono hsub) hno
      obtain ⟨core, hin, htype⟩ := hsome hne
      refine ⟨⟨core, hsub hin, htype⟩, fun o' ho' => ?_⟩
      rw [objs, List.mem_cons] at ho'
      rcases ho' with rfl | ho'
      · -- the object itself is above the core
        have hsuffix := above_of_locsAll (o' :: above) cs core hin
        exact ⟨core, hsub hin, htype, List.mem_append_right _ (hsuffix.subset List.mem_cons_self)⟩
      · exact (hall o' ho').mono hsub
theorem coveredAll (above : List Obj) : ∀ ts : List Topo, CoresAbove (locsAll above ts) →
    (∀ c ∈ above, c.type ≠ .core) →
    (ts ≠ [] → ∃ core ∈ locsAll above ts, core.here.obj.type = .core) ∧ ∀ o ∈ objsAll ts, Covers (locsAll above ts) o
  | [], _, _ => ⟨fun h => absurd rfl h, fun o ho => absurd ho List.not_mem_nil⟩
  | t :: ts, h, habove => by
    rw [locsAll] at h ⊢
    obtain ⟨⟨core, hin, htype⟩, hone⟩ := covered above t (h.mono (List.subset_append_left ..)) habove
    obtain ⟨-, hrest⟩ := coveredAll above ts (h.mono (List.subset_append_right ..)) habove
    refine ⟨fun _ => ⟨core, List.mem_append_left _ hin, htype⟩, fun o ho => ?_⟩
    rw [objsAll, List.mem_append] at ho
    rcases ho with ho | ho
    · exact (hone o ho).mono (List.subset_append_left ..)
    · exact (hrest o ho).mono (List.subset_append_right ..)
end

end Topo

/-- **Some core gets to every normal object**, and cores get to nothing else. -/
theorem Hwloc2.covers {topo : Topo} (h : Hwloc2 topo) (o : Obj) :
    (∃ core ∈ topo.cores, o ∈ core.reached) ↔ o ∈ topo.objs := by
  constructor
  · rintro ⟨core, hcore, ho⟩
    have hsub := Topo.locs_subperm [] topo core (List.mem_of_mem_filter hcore)
    rw [List.append_nil] at hsub
    exact hsub.subset ho
  · intro ho
    obtain ⟨-, hall⟩ := Topo.covered [] topo ⟨h.leaves, h.puBelowCore⟩ fun c hc => absurd hc List.not_mem_nil
    obtain ⟨core, hin, htype, ho⟩ := hall o ho
    exact ⟨core, List.mem_filter.mpr ⟨hin, decide_eq_true htype⟩, ho⟩

/-! ## The arrays of the objects -/

section Visits
variable [DecidableEq M] {L L' : Registry V M} {m : M}

/-- The array of every object holds its registered monitors, each as often as it was registered. -/
def Matched (L : Registry V M) : Prop :=
  ∀ o, (L.objMonitors o).Perm (L.registered.filter fun m => (L.mon m).location = o)

theorem Registers.matched (hr : Registers L m L') (h : Matched L) : Matched L' := by
  obtain ⟨display, owner, hmon⟩ := hr.mon
  have hloc : ∀ x, (L'.mon x).location = (L.mon x).location := by
    rw [hmon]
    exact L.setMon_mon_location (m := m) (h := { L.mon m with display := display, owner := owner }) rfl
  intro o
  have hreg := (hr.registered.filter fun x => (L.mon x).location = o).symm
  simp only [hloc]
  refine (hr.objMonitors o).trans (List.Perm.trans ?_ hreg)
  rw [List.filter_cons]
  by_cases ho : o = (L.mon m).location
  · rw [if_pos ho, if_pos (decide_eq_true ho.symm)]
    exact (h o).cons m
  · rw [if_neg ho, if_neg fun he => ho (of_decide_eq_true he).symm]
    exact h o

theorem regSys_matched (h : regSys.Reach Empty Lts.always L) : Matched L := by
  refine Lts.Reach.invariant_of (J := Registry.Sound) (fun _ => regSys_sound) ?_ ?_ h
  · rintro L ⟨topo, mon, rfl⟩ o
    simp [Registry.objMonitors, Registry.registered, Registry.init]
  · intro L l L' hs hi _ hn
    rcases regNext_cases hs hn with rfl | ⟨m, display, -, hreg⟩ | ⟨domain, -, -, rfl⟩
    · exact hi
    · exact hreg.matched hi
    · exact hi

/-- Of distinct objects one at most holds the monitor. -/
theorem count_flatMap {os : List Obj} (hd : os.Nodup) {f : Obj → List M} {o : Obj} (hf : ∀ o', m ∈ f o' → o' = o) :
    (os.flatMap f).count m = if o ∈ os then (f o).count m else 0 := by
  induction os with
  | nil => rfl
  | cons o' os ih =>
    obtain ⟨hnot, hd⟩ := List.nodup_cons.mp hd
    rw [List.flatMap_cons, List.count_append, ih hd]
    by_cases ho : o = o'
    · subst ho
      rw [if_neg hnot, if_pos List.mem_cons_self, Nat.add_zero]
    · have hzero : (f o').count m = 0 := List.count_eq_zero.mpr fun hm => ho (hf o' hm).symm
      rw [hzero, Nat.zero_add]
      exact if_congr (by rw [List.mem_cons, or_iff_right ho]) rfl rfl

/-- How often the thread of a core updates a monitor. -/
theorem updateLocation_count (hs : L.Sound) (hm : Matched L) (hd : L.topo.objs.Nodup) {core : Loc}
    (hcore : core ∈ L.topo.cores) (m : M) : (updateLocation L core true true).count m =
      if (L.mon m).location ∈ core.reached then L.registered.count m else 0 := by
  have hnodup : core.reached.Nodup := Topo.locs_nodup hd (List.mem_of_mem_filter hcore)
  have hone : ∀ o, m ∈ L.objMonitors o → o = (L.mon m).location := fun o ho => ((hs.mem o m).mp ho).2.symm
  have hcount : (L.objMonitors (L.mon m).location).count m = L.registered.count m := by
    rw [(hm _).count_eq]
    exact List.count_filter (decide_eq_true rfl)
  rw [updateLocation_core, ← hcount]
  exact count_flatMap hnodup hone

/-- Some core thread updates the monitor, and every one updates it once if it gets to its object. -/
structure Visited (L : Registry V M) (m : M) : Prop where
  some : ∃ core ∈ L.topo.cores, m ∈ updateLocation L core true true
  once : ∀ core ∈ L.topo.cores,
    (updateLocation L core true true).count m = if (L.mon m).location ∈ core.reached then 1 else 0

/-- **A registered monitor is visited as it should be exactly when its object is a normal one and it was registered
once**, and only registered monitors on the core, below it and above it are visited. -/
theorem visited_iff (h : regSys.Reach Empty Lts.always L) (ht : Hwloc2 L.topo) :
    (∀ m ∈ L.registered, Visited L m ↔ (L.mon m).location ∈ L.topo.objs ∧ L.registered.count m = 1) ∧
      ∀ core ∈ L.topo.cores, ∀ x ∈ updateLocation L core true true,
        x ∈ L.registered ∧ (L.mon x).location ∈ core.reached := by
  have hs := regSys_sound h
  have hcount {core : Loc} (hcore : core ∈ L.topo.cores) := updateLocation_count hs (regSys_matched h) ht.distinct hcore
  have hmem {core : Loc} (hcore : core ∈ L.topo.cores) (x : M) :
      x ∈ updateLocation L core true true ↔ x ∈ L.registered ∧ (L.mon x).location ∈ core.reached := by
    rw [← List.count_pos_iff, hcount hcore]
    split_ifs with hin
    · rw [List.count_pos_iff, and_iff_left hin]
    · exact iff_of_false (lt_irrefl 0) fun hx => hin hx.2
  refine ⟨fun m hm => ⟨fun hv => ?_, fun ⟨ho, hone⟩ => ⟨?_, fun core hcore => ?_⟩⟩,
    fun core hcore x => (hmem hcore x).mp⟩
  · obtain ⟨core, hcore, hx⟩ := hv.some
    obtain ⟨-, hin⟩ := (hmem hcore m).mp hx
    have hone := hv.once core hcore
    rw [hcount hcore, if_pos hin, if_pos hin] at hone
    exact ⟨(ht.covers _).mp ⟨core, hcore, hin⟩, hone⟩
  · obtain ⟨core, hcore, hin⟩ := (ht.covers _).mpr ho
    exact ⟨core, hcore, (hmem hcore m).mpr ⟨hm, hin⟩⟩
  · rw [hcount hcore, hone]

end Visits

/-! ## A machine with a NUMA node -/

/-- Two cores, and a NUMA node as memory child of the machine. -/
def numaNode : Obj := ⟨.numaNode, -3, 0, {0, 1}⟩

def numaTopo : Topo :=
  .node Topo.machine [numaNode]
    [.node (Topo.coreObj 0) [] [.node (Topo.puObj 0) [] []], .node (Topo.coreObj 1) [] [.node (Topo.puObj 1) [] []]]

theorem numaTopo_hwloc2 : Hwloc2 numaTopo := by
  refine ⟨by decide, fun l hl => ?_, fun l hl => ?_⟩
  all_goals
    simp only [numaTopo, Topo.locs, Topo.locsAll, List.append_nil, List.nil_append, List.cons_append, List.mem_cons,
      List.not_mem_nil, or_false] at hl
    rcases hl with rfl | rfl | rfl | rfl | rfl
  all_goals simp [Topo.children, Topo.obj, Topo.machine, Topo.coreObj, Topo.puObj]

/-- Monitor 2 is on the NUMA node. -/
def numaMonitors (i : ℕ) : Hmonitor Thread ℚ ℕ :=
  (newHmonitor .main 0 (fakeSpec [] (if i = 2 then numaNode else Topo.coreObj i) fun _ => 0)).get rfl

/-- The monitors of core 0 and of the NUMA node. -/
def numaRegistry : Registry ℚ ℕ := (regSys.exec (.init numaTopo numaMonitors) [.register 0 0, .register 2 0]).get rfl

theorem numaRegistry_reach : regSys.Reach Empty Lts.always numaRegistry :=
  .of_exec (.init ⟨numaTopo, numaMonitors, rfl⟩) (show regSys.exec _ [.register 0 0, .register 2 0] = _ from rfl)

theorem core_visited : numaRegistry.registered = [0, 2] ∧ Visited numaRegistry 0 :=
  ⟨by decide, ((visited_iff numaRegistry_reach numaTopo_hwloc2).1 0 (by decide)).mpr ⟨by decide, by decide⟩⟩

/-- No core thread visits the monitor of the NUMA node. -/
theorem numa_not_visited : ¬ ∀ (L : Registry ℚ ℕ) (m : ℕ), regSys.Reach Empty Lts.always L → Hwloc2 L.topo →
    m ∈ L.registered → Visited L m := by
  intro h
  obtain ⟨core, hcore, hm⟩ := (h numaRegistry 2 numaRegistry_reach numaTopo_hwloc2 (by decide)).some
  have hnone : ∀ core ∈ numaRegistry.topo.cores, 2 ∉ updateLocation numaRegistry core true true := by decide
  exact hnone core hcore hm

end Hmon
