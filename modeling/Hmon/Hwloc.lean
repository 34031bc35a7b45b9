import Mathlib.Data.Finset.SDiff
import Mathlib.Data.List.Perm.Subperm

/-!
# The part of hwloc that the library uses

hwloc is not part of the sources; what is here is the documented behaviour that `synchronize.c` relies on:
bitmaps are finite sets, a topology is a tree of normal objects, and NUMA nodes hang off the tree as memory
children.

* `Obj`, `Topo` : objects and topologies; `Topo.objs` : the normal objects in depth-first order;
* `Loc`, `Topo.locs` : an object with its chain of parents;
* `nbobjsInsideCpuset`, `objInsideCpuset` : the `hwloc_get_*_inside_cpuset_by_depth` functions;
* `Topo.cores` : the cores in logical order.
-/

namespace Hmon

/-- `hwloc_cpuset_t`. -/
abbrev Cpuset := Finset Nat

/-- `hwloc_obj_type_t`: the library tests for cores and processing units only. -/
inductive ObjType
  | core
  | pu
  | numaNode
  | other (type : Nat)
  deriving DecidableEq

/-- `struct hwloc_obj`. -/
structure Obj where
  type : ObjType
  depth : Int
  logicalIndex : Nat
  cpuset : Cpuset
  deriving DecidableEq

/-- `hwloc_topology_t`: `children` are the normal children, `memory` the memory children (NUMA nodes). -/
inductive Topo
  | node (obj : Obj) (memory : List Obj) (children : List Topo)

namespace Topo

def obj : Topo → Obj
  | node o _ _ => o

def children : Topo → List Topo
  | node _ _ cs => cs

/-! ## Traversals -/

mutual
/-- The normal objects, each before its children. -/
def objs : Topo → List Obj
  | node o _ cs => o :: objsAll cs
/-- The objects of a list of subtrees. -/
def objsAll : List Topo → List Obj
  | [] => []
  | t :: ts => objs t ++ objsAll ts
end

end Topo

/-- An object in its place: the subtree below it and its parents, nearest first. -/
structure Loc where
  here : Topo
  above : List Obj

namespace Topo

mutual
/-- Every normal object with its parents; `above` are the parents of the root of the subtree. -/
def locs (above : List Obj) : Topo → List Loc
  | node o mem cs => ⟨node o mem cs, above⟩ :: locsAll (o :: above) cs
def locsAll (above : List Obj) : List Topo → List Loc
  | [] => []
  | t :: ts => locs above t ++ locsAll above ts
end

/-- The cores; the position in the list is the logical index (`hwloc_get_obj_by_type`). -/
def cores (topo : Topo) : List Loc := (topo.locs []).filter fun l => l.here.obj.type = .core

/-- `obj->parent`. -/
def parent (topo : Topo) (o : Obj) : Option Obj :=
  ((topo.locs []).find? fun l => l.here.obj = o).bind fun l => l.above.head?

/-- `hwloc_topology_get_depth`: one more than the largest depth of a normal object. -/
def topologyDepth (topo : Topo) : Nat :=
  topo.objs.foldl (fun d o => max d (o.depth + 1).toNat) 0

/-- `hwloc_get_complete_cpuset`. -/
def completeCpuset (topo : Topo) : Cpuset := topo.obj.cpuset

/-- The objects of a depth whose cpuset is not empty and lies in `set`: what the
`inside_cpuset_by_depth` functions enumerate. -/
def insideCpusetByDepth (topo : Topo) (set : Cpuset) (depth : Int) : List Obj :=
  topo.objs.filter fun o => o.depth = depth ∧ o.cpuset ≠ ∅ ∧ o.cpuset ⊆ set

/-- `hwloc_get_nbobjs_inside_cpuset_by_depth`. -/
def nbobjsInsideCpuset (topo : Topo) (set : Cpuset) (depth : Int) : Nat :=
  (topo.insideCpusetByDepth set depth).length

/-- `hwloc_get_obj_inside_cpuset_by_depth`. -/
def objInsideCpuset (topo : Topo) (set : Cpuset) (depth : Int) (idx : Nat) : Option Obj :=
  (topo.insideCpusetByDepth set depth)[idx]?

/-- No object is inside the empty set. -/
@[simp] theorem insideCpusetByDepth_empty (topo : Topo) (depth : Int) :
    topo.insideCpusetByDepth ∅ depth = [] := by
  unfold insideCpusetByDepth
  rw [List.filter_eq_nil_iff]
  intro o _ h
  simp only [decide_eq_true_eq, Finset.subset_empty] at h
  exact h.2.1 h.2.2

@[simp] theorem nbobjsInsideCpuset_empty (topo : Topo) (depth : Int) : topo.nbobjsInsideCpuset ∅ depth = 0 := by
  simp [nbobjsInsideCpuset]

/-! ## A place has no object twice -/

mutual
/-- The objects below and above a place are among those of the tree and its parents. -/
theorem locs_subperm (above : List Obj) : ∀ (t : Topo), ∀ l ∈ t.locs above,
    (l.here.objs ++ l.above).Subperm (t.objs ++ above)
  | node o mem cs, l, hl => by
    rw [locs, List.mem_cons] at hl
    rcases hl with rfl | hl
    · exact List.Subperm.refl _
    · refine (locsAll_subperm (o :: above) cs l hl).trans (List.Perm.subperm ?_)
      rw [objs, List.cons_append]
      exact List.perm_middle
theorem locsAll_subperm (above : List Obj) : ∀ (ts : List Topo), ∀ l ∈ locsAll above ts,
    (l.here.objs ++ l.above).Subperm (objsAll ts ++ above)
  | [], l, hl => by rw [locsAll] at hl; exact absurd hl List.not_mem_nil
  | t :: ts, l, hl => by
    rw [locsAll, List.mem_append] at hl
    rw [objsAll, List.append_assoc]
    rcases hl with hl | hl
    · refine (locs_subperm above t l hl).trans ?_
      exact (List.Sublist.append_left (List.sublist_append_right _ _) _).subperm
    · refine (locsAll_subperm above ts l hl).trans ?_
      exact (List.sublist_append_right _ _).subperm
end

/-- In a tree of distinct objects no object is both below and above a place. -/
theorem locs_nodup {topo : Topo} (h : topo.objs.Nodup) {l : Loc} (hl : l ∈ topo.locs []) :
    (l.here.objs ++ l.above).Nodup := by
  have hs := locs_subperm [] topo l hl
  rw [List.append_nil] at hs
  obtain ⟨xs, hp, hsub⟩ := hs
  exact hp.nodup_iff.mp (h.sublist hsub)

/-! ## A machine with two cores -/

def machine : Obj := ⟨.other 0, 0, 0, {0, 1}⟩

def coreObj (i : Nat) : Obj := ⟨.core, 1, i, {i}⟩

def puObj (i : Nat) : Obj := ⟨.pu, 2, i, {i}⟩

/-- Two cores of one processing unit each. -/
def twoCores : Topo :=
  node machine [] [node (coreObj 0) [] [node (puObj 0) [] []], node (coreObj 1) [] [node (puObj 1) [] []]]

end Topo
end Hmon
