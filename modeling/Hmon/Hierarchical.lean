import Hmon.Accumulate
import Hmon.Lib.Layered
import Hmon.Thread.Refresh

/-!
# The hierarchical plugin (`hierarchical_monitor.c`)

* `Interleaved` : a thread performs its operations among those of the other threads;
* `copySamples`, `EventsetRead` : what `hmonitor_eventset_read` writes, in `unsigned` arithmetic;
* `addNamedEvents_children` : the children that the names find, and the returned counts;
* `Concatenates` : a read writes as many values as were counted, the samples of one child after those of another;
* `hierarchicalConcatenates_iff` : **every read does so exactly when all children have fewer than `2^32` samples**;
* `Interleaved.eventsetRead` : below that, the operations of a chained read are this read.
-/

namespace Hmon
open Lib

variable {V M : Type}

/-! ## A thread among others -/

section Interleaved
variable [Double V] [DecidableEq M]

/-- The thread `t` had `ops` to do and has `ops'` left; the other threads have performed any operations between. -/
inductive Interleaved (t : Thread) :
    List (Op M) → (M → Hmonitor Thread V M) → List (Op M) → (M → Hmonitor Thread V M) → Prop
  | refl (ops : List (Op M)) (s : M → Hmonitor Thread V M) : Interleaved t ops s ops s
  | mine {op : Op M} {ops ops' : List (Op M)} {s s' : M → Hmonitor Thread V M} {e : Effect V M} (a : Answer V) :
      op.effect t a s = some e → Interleaved t (e.ops ++ ops) (Function.update s op.target e.mon) ops' s' →
      Interleaved t (op :: ops) s ops' s'
  | other {op : Op M} {ops ops' : List (Op M)} {s s' : M → Hmonitor Thread V M} {e : Effect V M} {u : Thread}
      (a : Answer V) : u ≠ t → op.effect u a s = some e →
      Interleaved t ops (Function.update s op.target e.mon) ops' s' → Interleaved t ops s ops' s'

variable {t : Thread} {ops ops' as bs : List (Op M)} {s s' : M → Hmonitor Thread V M}

/-- Every run of the world is such a run of each of its threads. -/
theorem World.interleaved {w w' : World V M} {ls : List (Thread × Answer V)} (h : roundSys.exec w ls = some w')
    (t : Thread) : Interleaved t (w.todo t) w.mon (w'.todo t) w'.mon := by
  induction ls generalizing w with
  | nil =>
    rw [Lts.exec_nil, Option.some_inj] at h
    subst h
    exact .refl _ _
  | cons l ls ih =>
    obtain ⟨w₁, hstep, hrest⟩ := Lts.exec_cons_eq_some.mp h
    have hnext := ih hrest
    obtain ⟨op, ops, e, htodo, he, rfl⟩ := World.step_cases hstep
    by_cases hl : l.1 = t
    · subst hl
      rw [World.commit_todo_self] at hnext
      rw [htodo]
      exact .mine l.2 he hnext
    · rw [World.commit_todo_ne _ _ _ _ _ (Ne.symm hl)] at hnext
      exact .other l.2 hl he hnext

theorem Interleaved.split (h : Interleaved t (as ++ bs) s [] s') :
    ∃ s₁, Interleaved t as s [] s₁ ∧ Interleaved t bs s₁ [] s' := by
  generalize hops : as ++ bs = ops at h
  generalize hnil : ([] : List (Op M)) = ops' at h
  induction h generalizing as with
  | refl ops s =>
    subst hnil
    obtain ⟨rfl, rfl⟩ := List.append_eq_nil_iff.mp hops
    exact ⟨s, .refl [] s, .refl [] s⟩
  | @mine op ops ops' s s' e a he hrest ih =>
    subst hnil
    cases as with
    | nil =>
      rw [List.nil_append] at hops
      subst hops
      exact ⟨s, .refl [] s, .mine a he hrest⟩
    | cons op' as =>
      obtain ⟨rfl, rfl⟩ := List.cons.inj hops
      obtain ⟨s₁, h₁, h₂⟩ := ih (List.append_assoc e.ops as bs) rfl
      exact ⟨s₁, .mine a he h₁, h₂⟩
  | other a hu he _ ih =>
    obtain ⟨s₁, h₁, h₂⟩ := ih hops hnil
    exact ⟨s₁, .other a hu he h₁, h₂⟩

theorem Interleaved.trans {ops'' : List (Op M)} {s'' : M → Hmonitor Thread V M} (h : Interleaved t ops s ops' s')
    (h' : Interleaved t ops' s' ops'' s'') : Interleaved t ops s ops'' s'' := by
  induction h with
  | refl => exact h'
  | mine a he _ ih => exact .mine a he (ih h')
  | other a hu he _ ih => exact .other a hu he (ih h')

/-- The first operation of a thread comes after operations of others. -/
theorem Interleaved.uncons {op : Op M} (h : Interleaved t (op :: ops) s [] s') : ∃ s₁ a e,
    Interleaved t [] s [] s₁ ∧ op.effect t a s₁ = some e ∧
      Interleaved t (e.ops ++ ops) (Function.update s₁ op.target e.mon) [] s' := by
  generalize hops : op :: ops = as at h
  generalize hnil : ([] : List (Op M)) = ops' at h
  induction h with
  | refl =>
    subst hnil
    cases hops
  | @mine op' ops₁ ops' s s' e a he hrest =>
    subst hnil
    obtain ⟨rfl, rfl⟩ := List.cons.inj hops
    exact ⟨s, a, e, .refl [] s, he, hrest⟩
  | other a hu he _ ih =>
    subst hnil
    obtain ⟨s₁, a', e, hothers, he', hrest⟩ := ih hops rfl
    exact ⟨s₁, a', e, .other a hu he hothers, he', hrest⟩

/-- A thread may be the only one that runs. -/
theorem Runs.interleaved {answer : Replies V M} {l : List (M × Event)} (h : Runs t answer ops s l s') :
    Interleaved t ops s [] s' := by
  induction h with
  | nil mon => exact .refl [] mon
  | cons he _ ih => exact .mine _ he ih

theorem Interleaved.nSamples (h : Interleaved t ops s ops' s') (x : M) : (s' x).nSamples = (s x).nSamples := by
  have hupdate : ∀ {u : Thread} {op : Op M} {s : M → Hmonitor Thread V M} {e : Effect V M} {a : Answer V},
      op.effect u a s = some e → (Function.update s op.target e.mon x).nSamples = (s x).nSamples := by
    intro u op s e a he
    by_cases hx : x = op.target
    · rw [hx, Function.update_self, Op.effect_nSamples he]
    · rw [Function.update_of_ne hx]
  induction h with
  | refl => rfl
  | mine a he _ ih => rw [ih, hupdate he]
  | other a _ he _ ih => rw [ih, hupdate he]

end Interleaved

/-! ## The read -/

/-- The samples of a monitor; `none` is a cell outside of the array. -/
def samplesOf (h : Hmonitor Thread V M) : List (Option V) := (List.range h.nSamples).map fun i => h.samples[i]?

/-- The writes `values[i+offset] = m->samples[i]`: their indices and values. -/
def copySamples (offset : Nat) (m : Hmonitor Thread V M) : List (Nat × Option V) :=
  (List.range m.nSamples).map fun i => (u32 (i + offset), m.samples[i]?)

/-- The writes behind `values`, which is the cell `base` of the events. -/
def putValues (base : Nat) : List V → List (Nat × Option V) → List V
  | cells, [] => cells
  | cells, (_, none) :: writes => putValues base cells writes
  | cells, (i, some v) :: writes => putValues base (cells.set (base + i) v) writes

/-- The loop of `hmonitor_eventset_read` of the monitor `m` by the thread `t`, from the child on at which the offset is
`offset`. `shown` are the children as they are when they are copied, refreshed before or busy, and `writes` is what is
written. -/
inductive EventsetRead [Double V] [DecidableEq M] (t : Thread) (m : M) (base : Nat) :
    Nat → List M → (M → Hmonitor Thread V M) → List (Hmonitor Thread V M) → List (Nat × Option V) →
      (M → Hmonitor Thread V M) → Prop
  | nil {offset : Nat} {s s' : M → Hmonitor Thread V M} : Interleaved t [] s [] s' →
      EventsetRead t m base offset [] s [] [] s'
  | cons {offset : Nat} {c : M} {cs : List M} {s s₁ s' : M → Hmonitor Thread V M} {shown : List (Hmonitor Thread V M)}
      {writes : List (Nat × Option V)} : Interleaved t [.lockChild c] s [] s₁ →
      EventsetRead t m base (u32 (offset + (s₁ c).nSamples)) cs
        (Function.update s₁ m { s₁ m with events := putValues base (s₁ m).events (copySamples offset (s₁ c)) })
        shown writes s' →
      EventsetRead t m base offset (c :: cs) s (s₁ c :: shown) (copySamples offset (s₁ c) ++ writes) s'

/-- What a read writes that is shown these children. -/
def copiesFrom : Nat → List (Hmonitor Thread V M) → List (Nat × Option V)
  | _, [] => []
  | offset, h :: hs => copySamples offset h ++ copiesFrom (u32 (offset + h.nSamples)) hs

/-- The children's numbers of samples do not change while they are read. -/
theorem EventsetRead.writes [Double V] [DecidableEq M] {t : Thread} {m : M} {base offset : Nat} {cs : List M}
    {s s' : M → Hmonitor Thread V M} {shown : List (Hmonitor Thread V M)} {writes : List (Nat × Option V)}
    (h : EventsetRead t m base offset cs s shown writes s') :
    shown.map (fun h => h.nSamples) = cs.map (fun c => (s c).nSamples) ∧ writes = copiesFrom offset shown := by
  induction h with
  | nil _ => exact ⟨rfl, rfl⟩
  | @cons offset c cs s s₁ s' shown writes hlock _ ih =>
    obtain ⟨hwidths, hwrites⟩ := ih
    refine ⟨?_, by rw [copiesFrom, hwrites]⟩
    rw [List.map_cons, List.map_cons, hlock.nSamples c, hwidths]
    refine congrArg _ (List.map_congr_left fun d _ => ?_)
    by_cases hd : d = m
    · subst hd
      rw [Function.update_self]
      exact hlock.nSamples d
    · rw [Function.update_of_ne hd]
      exact hlock.nSamples d

section Copies
variable (offset : Nat) (shown : List (Hmonitor Thread V M))

theorem length_copiesFrom : (copiesFrom offset shown).length = total (fun h => h.nSamples) shown := by
  induction shown generalizing offset with
  | nil => rfl
  | cons h hs ih =>
    rw [copiesFrom, List.length_append, ih, total_cons]
    simp [copySamples]

/-- The values are the samples of the children, in their order, whatever the offsets. -/
theorem copiesFrom_values : (copiesFrom offset shown).map Prod.snd = shown.flatMap samplesOf := by
  induction shown generalizing offset with
  | nil => rfl
  | cons h hs ih =>
    rw [copiesFrom, List.map_append, ih, List.flatMap_cons]
    simp [copySamples, samplesOf]

/-- Without overflow each child's block starts behind those of the children before it. -/
theorem copiesFrom_block {offset : Nat} {shown : List (Hmonitor Thread V M)}
    (hfit : offset + total (fun h => h.nSamples) shown < 2 ^ 32) {j : Nat} {h : Hmonitor Thread V M}
    (hj : shown[j]? = some h) {i : Nat} (hi : i < h.nSamples) :
    (copiesFrom offset shown)[total (fun h => h.nSamples) (shown.take j) + i]? =
      some (offset + (total (fun h => h.nSamples) (shown.take j) + i), h.samples[i]?) := by
  induction shown generalizing offset j with
  | nil => cases hj
  | cons h₀ hs ih =>
    rw [total_cons] at hfit
    have hlen : (copySamples offset h₀).length = h₀.nSamples := by simp [copySamples]
    have hoffset : u32 (offset + h₀.nSamples) = offset + h₀.nSamples := Nat.mod_eq_of_lt (by omega)
    rw [copiesFrom, hoffset]
    cases j with
    | zero =>
      obtain rfl : h₀ = h := Option.some.inj hj
      rw [List.take_zero, total_nil, Nat.zero_add, List.getElem?_append_left (by rwa [hlen])]
      have hu : u32 (i + offset) = offset + i := by
        rw [Nat.add_comm]
        exact Nat.mod_eq_of_lt (by omega)
      simp [copySamples, hi, hu]
    | succ j =>
      have hj : hs[j]? = some h := hj
      rw [List.take_succ_cons, total_cons, Nat.add_assoc, List.getElem?_append_right (by omega), hlen,
        Nat.add_sub_cancel_left, ih (by omega) hj, Nat.add_assoc]

end Copies

/-- A block that does not wrap is a row of cells. -/
theorem putValues_copySamples {cells xs : List V} {k n : Nat} (hfit : k + n < 2 ^ 32) :
    putValues base cells ((List.range n).map fun i => (u32 (i + k), xs[i]?)) =
      writeCells cells (base + k) (xs.take n) := by
  induction n generalizing cells xs k with
  | zero => rfl
  | succ n ih =>
    have hk : u32 (0 + k) = k := by
      rw [Nat.zero_add]
      exact Nat.mod_eq_of_lt (by omega)
    have hnext : ((List.range n).map Nat.succ).map (fun i => (u32 (i + k), xs[i]?)) =
        (List.range n).map fun i => (u32 (i + (k + 1)), xs.tail[i]?) := by
      rw [List.map_map]
      refine List.map_congr_left fun i _ => ?_
      rw [List.getElem?_tail, ← Nat.add_assoc, Nat.add_right_comm]
      rfl
    rw [List.range_succ_eq_map, List.map_cons, hnext, hk]
    cases xs with
    | nil =>
      show putValues base cells _ = cells
      exact (ih (by omega)).trans (by rw [List.tail_nil, List.take_nil, writeCells])
    | cons x xs =>
      show putValues base (cells.set (base + k) x) _ = writeCells (cells.set (base + k) x) (base + k + 1) (xs.take n)
      exact ih (k := k + 1) (by omega)

/-! ## The counts -/

/-- The names find the children in their order, and the counts add up to the samples of all, in 32 bits. -/
theorem addNamedEvents_children {L : Registry V M} {location : Obj} {names : List CString} {cs : List M} {n : Nat}
    (h : addNamedEvents L location (fun cs => cs.foldl (fun n c => n + (L.mon c).nSamples) 0) names = some (cs, n)) :
    cs = names.flatMap (L.childrenNamed location) ∧ n = u32 (total (fun c => (L.mon c).nSamples) cs) := by
  have hcount : ∀ (cs : List M) (k : Nat),
      cs.foldl (fun n c => n + (L.mon c).nSamples) k = k + total (fun c => (L.mon c).nSamples) cs := by
    intro cs
    induction cs with
    | nil => exact fun k => rfl
    | cons c cs ih =>
      intro k
      rw [List.foldl_cons, ih, total_cons, Nat.add_assoc]
  induction names generalizing cs n with
  | nil =>
    cases h
    exact ⟨rfl, rfl⟩
  | cons name names ih =>
    simp only [addNamedEvents] at h
    split_ifs at h with hn
    obtain ⟨⟨cs', n'⟩, hrest, he⟩ := Option.map_eq_some_iff.mp h
    cases he
    obtain ⟨rfl, rfl⟩ := ih hrest
    refine ⟨(List.flatMap_cons ..).symm, ?_⟩
    rw [hcount, Nat.zero_add, total_append]
    exact (Nat.add_mod _ _ _).symm

/-! ## The concatenation -/

/-- The read writes `n` values: the samples of the children in their order, the block of each at the sum of the numbers
of samples of the children before it. -/
structure Concatenates (n : Nat) (children shown : List (Hmonitor Thread V M)) (writes : List (Nat × Option V)) :
    Prop where
  count : writes.length = n
  values : writes.map Prod.snd = shown.flatMap samplesOf
  blocks : ∀ j h, shown[j]? = some h → ∀ i < h.nSamples,
    writes[total (fun c => c.nSamples) (children.take j) + i]? =
      some (total (fun c => c.nSamples) (children.take j) + i, h.samples[i]?)

theorem copiesFrom_concatenates_iff {children shown : List (Hmonitor Thread V M)}
    (hwidths : shown.map (fun h => h.nSamples) = children.map fun c => c.nSamples) :
    Concatenates (u32 (total (fun c => c.nSamples) children)) children shown (copiesFrom 0 shown) ↔
      total (fun c => c.nSamples) children < 2 ^ 32 := by
  have htotal : ∀ j, total (fun h => h.nSamples) (shown.take j) = total (fun c => c.nSamples) (children.take j) := by
    intro j
    have htake := congrArg (total id) (congrArg (List.take j) hwidths)
    rwa [← List.map_take, ← List.map_take, total_map, total_map] at htake
  have hall : total (fun h => h.nSamples) shown = total (fun c => c.nSamples) children := by
    have hids := congrArg (total id) hwidths
    rwa [total_map, total_map] at hids
  constructor
  · intro h
    have hcount := h.count
    rw [length_copiesFrom, hall] at hcount
    exact hcount ▸ Nat.mod_lt _ (Nat.two_pow_pos 32)
  · intro hlt
    refine ⟨?_, copiesFrom_values 0 shown, fun j h hj i hi => ?_⟩
    · rw [length_copiesFrom, hall]
      exact (Nat.mod_eq_of_lt hlt).symm
    · have hblock := copiesFrom_block (by rwa [Nat.zero_add, hall]) hj hi
      rwa [Nat.zero_add, htotal] at hblock

section Read
variable [Double V] [DecidableEq M] {t : Thread} {m : M} {base offset : Nat} {cs : List M}
  {mon s s' : M → Hmonitor Thread V M} {shown : List (Hmonitor Thread V M)} {writes : List (Nat × Option V)}

theorem EventsetRead.concatenates_iff (h : EventsetRead t m base 0 cs s shown writes s')
    (hs : ∀ c ∈ cs, (s c).nSamples = (mon c).nSamples) :
    Concatenates (u32 (total (fun c => (mon c).nSamples) cs)) (cs.map mon) shown writes ↔
      total (fun c => (mon c).nSamples) cs < 2 ^ 32 := by
  obtain ⟨hwidths, rfl⟩ := h.writes
  have hmon : shown.map (fun h => h.nSamples) = (cs.map mon).map fun c => c.nSamples := by
    rw [hwidths, List.map_map]
    exact List.map_congr_left hs
  have hiff := copiesFrom_concatenates_iff hmon
  rwa [total_map] at hiff

/-! ## The read among the operations of a thread -/

/-- Without overflow the operations of a read of `m` are this read. -/
theorem Interleaved.eventsetRead (hs : ∀ c ∈ cs, (s c).nSamples = (mon c).nSamples)
    (hfit : offset + total (fun c => (mon c).nSamples) cs < 2 ^ 32)
    (h : Interleaved t (hierarchicalRead mon m (base + offset) cs) s [] s') :
    ∃ shown writes, EventsetRead t m base offset cs s shown writes s' := by
  induction cs generalizing offset s with
  | nil => exact ⟨[], [], .nil h⟩
  | cons c cs ih =>
    rw [total_cons] at hfit
    rw [hierarchicalRead, ← List.singleton_append] at h
    obtain ⟨s₀, hlock, hrest⟩ := h.split
    obtain ⟨s₁, a, e, hothers, he, hrest⟩ := hrest.uncons
    have hlock := hlock.trans hothers
    cases he
    have hc : (s₁ c).nSamples = (mon c).nSamples := (hlock.nSamples c).trans (hs c List.mem_cons_self)
    have hput : writeCells (s₁ m).events (base + offset) ((s₁ c).samples.take (s₁ c).nSamples) =
        putValues base (s₁ m).events (copySamples offset (s₁ c)) :=
      (putValues_copySamples (by omega)).symm
    have hoffset : u32 (offset + (s₁ c).nSamples) = offset + (mon c).nSamples := by
      rw [hc]
      exact Nat.mod_eq_of_lt (by omega)
    have hwidth : ∀ d ∈ cs, (Function.update s₁ m { s₁ m with
        events := putValues base (s₁ m).events (copySamples offset (s₁ c)) } d).nSamples = (mon d).nSamples := by
      intro d hd
      rw [← hs d (List.mem_cons_of_mem c hd), ← hlock.nSamples d]
      by_cases hdm : d = m
      · rw [hdm, Function.update_self]
      · rw [Function.update_of_ne hdm]
    rw [Nat.add_assoc, hput] at hrest
    obtain ⟨shown, writes, hread⟩ := ih hwidth (by omega) hrest
    exact ⟨_, _, .cons hlock (by rwa [hoffset])⟩

/-! ## Reads that return -/

/-- A thread locks a free child, refreshes and releases it. -/
theorem exists_lockChild {c : M} (t : Thread) (hm : m ≠ c) (hf : (s c).mutex = none) (hl : (s c).eventset = .leaf) :
    ∃ s', Interleaved t [.lockChild c] s [] s' ∧ (s' c).mutex = none ∧ (s' c).eventset = .leaf ∧
      ∀ x, x ≠ c → s' x = s x := by
  have hchildren : (s c).eventset.childEvents = [] := by
    rw [hl]
    rfl
  have hclosed : Closed (· = c) s := by
    rintro x rfl d hd
    rw [hchildren] at hd
    exact absurd hd List.not_mem_nil
  have halone : AloneOn t (· = c) s := by
    refine ⟨?_, ?_⟩
    · rintro x rfl hx
      exact absurd hf hx
    · rintro x rfl
      rw [hl]
      exact nofun
  have hpays : PaysOn (fun _ => 2) (· = c) s := by
    rintro x rfl
    rw [hchildren, total_nil]
  have hinner : ∀ op ∈ [Op.lockChild c], Inner (· = c) m op :=
    List.forall_mem_singleton.mpr (.below (show c = c from rfl))
  obtain ⟨l, s', hrun, -⟩ := exists_runs (D := (· = c)) (fun _ _ => ⟨true, [], 0⟩) hm hclosed halone hpays hinner
    fun x hx => absurd hx (by simp)
  have hset : (s' c).eventset = .leaf := (hrun.shape c).eventset.trans hl
  have hint := hrun.interleaved
  obtain ⟨x, s₂, -, hr, rfl⟩ := hrun.lockChild (D := fun _ => False) (fun hx => absurd hf hx) id (fun _ hx => hx.elim)
    (by rw [hchildren]; exact fun d hd => absurd hd List.not_mem_nil) (by rw [hl]; exact nofun)
  refine ⟨_, hint, by rw [Function.update_self], hset, fun y hy => ?_⟩
  rw [Function.update_of_ne hy, hr.out y id hy, Function.update_of_ne hy]

/-- A thread waits for a child that another one has locked, and goes on when that one releases it. -/
theorem exists_busyChild {c : M} (hb : (s c).mutex ≠ none) (ho : (s c).owner ≠ t) :
    ∃ s', Interleaved t [.lockChild c] s [] s' ∧ ∀ x, x ≠ c → s' x = s x := by
  have hlock : ∀ a : Answer V, (Op.lockChild c).effect t a s = some ⟨s c, [], [.blocked c]⟩ := by
    intro a
    simp only [Op.effect, hmonitorTrylock]
    cases hm : (s c).mutex with
    | none => exact absurd hm hb
    | some u => rw [if_neg ho]; rfl
  have hrelease : ∀ a : Answer V, (Op.release c).effect (s c).owner a (Function.update s c (s c)) =
      some ⟨{ s c with mutex := none }, [], []⟩ := by
    intro a
    simp only [Op.effect, hmonitorRelease, Function.update_self, if_true]
    rfl
  have hblocked : ∀ (r : M → Hmonitor Thread V M) (a : Answer V), (r c).mutex = none →
      (Op.blocked c).effect t a r = some ⟨{ r c with mutex := some t }, [], [.unlock c]⟩ :=
    fun r a hr => if_pos hr
  have hfree : (Function.update (Function.update s c (s c)) c { s c with mutex := none } c).mutex = none := by
    rw [Function.update_self]
  refine ⟨_, .mine ⟨true, [], 0⟩ (hlock _) (.other ⟨true, [], 0⟩ ho (hrelease _)
    (.mine ⟨true, [], 0⟩ (hblocked _ _ hfree) (.mine ⟨true, [], 0⟩ rfl (.refl _ _)))), fun x hx => ?_⟩
  simp only [Op.target, Function.update_of_ne hx]

theorem exists_eventsetRead (t : Thread) (base offset : Nat)
    (h : ∀ c ∈ cs, m ≠ c ∧ (s c).mutex = none ∧ (s c).eventset = .leaf) :
    ∃ shown writes s', EventsetRead t m base offset cs s shown writes s' := by
  induction cs generalizing offset s with
  | nil => exact ⟨[], [], s, .nil (.refl [] s)⟩
  | cons c cs ih =>
    obtain ⟨hm, hf, hl⟩ := h c List.mem_cons_self
    obtain ⟨s₁, hlock, hf₁, hl₁, hout⟩ := exists_lockChild t hm hf hl
    have hnext : ∀ d ∈ cs, m ≠ d ∧ (Function.update s₁ m { s₁ m with
        events := putValues base (s₁ m).events (copySamples offset (s₁ c)) } d).mutex = none ∧
        (Function.update s₁ m { s₁ m with
          events := putValues base (s₁ m).events (copySamples offset (s₁ c)) } d).eventset = .leaf := by
      intro d hd
      obtain ⟨hmd, hd⟩ := h d (List.mem_cons_of_mem c hd)
      rw [Function.update_of_ne hmd.symm]
      by_cases hdc : d = c
      · subst hdc
        exact ⟨hmd, hf₁, hl₁⟩
      · rw [hout d hdc]
        exact ⟨hmd, hd⟩
    obtain ⟨shown, writes, s', hread⟩ := ih (u32 (offset + (s₁ c).nSamples)) hnext
    exact ⟨_, _, s', .cons hlock hread⟩

/-! ## When the read concatenates -/

/-- **A read of a hierarchical monitor writes the concatenation of the samples of its children, and as many values as
the names counted, exactly when its children have fewer than `2^32` samples together.** -/
theorem hierarchicalConcatenates_iff {L : Registry V M} {location : Obj} {names : List CString} {n : Nat}
    (h : newEventset L location (.hierarchical names) = some (.hierarchical cs, n)) :
    cs = names.flatMap (L.childrenNamed location) ∧
      ∀ (t : Thread) (m : M) (base : Nat) (s s' : M → Hmonitor Thread V M) (shown : List (Hmonitor Thread V M))
        (writes : List (Nat × Option V)), (∀ c ∈ cs, (s c).nSamples = (L.mon c).nSamples) →
        EventsetRead t m base 0 cs s shown writes s' →
          (Concatenates n (cs.map L.mon) shown writes ↔ total (fun c => (L.mon c).nSamples) cs < 2 ^ 32) := by
  obtain ⟨⟨cs', n'⟩, hadd, he⟩ := Option.map_eq_some_iff.mp h
  cases he
  obtain ⟨hcs, rfl⟩ := addNamedEvents_children hadd
  exact ⟨hcs, fun t m base s s' shown writes hs hread => hread.concatenates_iff hs⟩

end Read

/-- Two children of one name; one of them is busy, and its thread releases it. -/
theorem hierarchicalConcatenates_busy :
    newEventset (namedRegistry fun _ => [102]) Topo.machine (.hierarchical [[102]]) = some (.hierarchical [0, 1], 2) ∧
      ∃ s shown writes s', (s 1).mutex = some (.core 1) ∧ EventsetRead .main 2 0 0 [0, 1] s shown writes s' ∧
        Concatenates 2 ([0, 1].map (namedRegistry fun _ => [102]).mon) shown writes := by
  let L := namedRegistry fun _ => [102]
  let s := Function.update L.mon 1 { L.mon 1 with mutex := some (.core 1) }
  have h : newEventset L Topo.machine (.hierarchical [[102]]) = some (.hierarchical [0, 1], 2) := rfl
  obtain ⟨s₁, hfree, -, -, hout⟩ := exists_lockChild (s := s) (m := 2) (c := 0) .main (by decide) rfl rfl
  let r := Function.update s₁ 2 { s₁ 2 with events := putValues 0 (s₁ 2).events (copySamples 0 (s₁ 0)) }
  have hr : r 1 = s 1 := (Function.update_of_ne (by decide) _ _).trans (hout 1 (by decide))
  obtain ⟨s₂, hbusy, -⟩ := exists_busyChild (s := r) (t := .main) (c := 1) (by rw [hr]; exact nofun)
    (by rw [hr]; exact nofun)
  have hread := EventsetRead.cons hfree (.cons hbusy (.nil (.refl [] _)))
  have hwidth : ∀ c ∈ [0, 1], (s c).nSamples = (L.mon c).nSamples :=
    List.forall_mem_cons.mpr ⟨rfl, List.forall_mem_singleton.mpr rfl⟩
  exact ⟨h, s, _, _, _, rfl, hread,
    ((hierarchicalConcatenates_iff h).2 _ _ _ _ _ _ _ hwidth hread).mpr (by decide)⟩

/-- A monitor of 65536 samples on a core. -/
def wideMonitors (i : ℕ) : Hmonitor Thread ℚ ℕ :=
  (newHmonitor .main 0
    { fakeSpec [102] (Topo.coreObj i) fun _ => 0 with plugin := some none, nSamples := 65536 }).get rfl

def wideRegistry : Registry ℚ ℕ := (regSys.exec (.init Topo.twoCores wideMonitors) [.register 0 0]).get rfl

/-- The name of a child with 65536 samples, 65537 times: 65536 events, and a read of `2^32` values more. -/
theorem repeated_name : ¬ ∀ (L : Registry ℚ ℕ) (location : Obj) (names : List CString) (cs : List ℕ) (n : ℕ),
    newEventset L location (.hierarchical names) = some (.hierarchical cs, n) →
      ∀ (t : Thread) (m base : ℕ) (s s' : ℕ → Hmonitor Thread ℚ ℕ) (shown : List (Hmonitor Thread ℚ ℕ))
        (writes : List (ℕ × Option ℚ)), (∀ c ∈ cs, (s c).nSamples = (L.mon c).nSamples) →
        EventsetRead t m base 0 cs s shown writes s' → Concatenates n (cs.map L.mon) shown writes := by
  intro h
  have hfound : wideRegistry.childrenNamed Topo.machine [102] = [0] := by decide
  have hadd : ∀ k, addNamedEvents wideRegistry Topo.machine
      (fun cs => cs.foldl (fun n c => n + (wideRegistry.mon c).nSamples) 0) (List.replicate k [102]) =
        some (List.replicate k 0, u32 (k * 65536)) := by
    intro k
    induction k with
    | zero => rfl
    | succ k ih =>
      have hone : u32 ([0].foldl (fun n c => n + (wideRegistry.mon c).nSamples) 0) = 65536 := by decide
      have hsum : u32 (65536 + u32 (k * 65536)) = u32 ((k + 1) * 65536) := by
        unfold u32
        omega
      rw [List.replicate_succ, addNamedEvents, hfound, hone, ih, if_neg (by decide), Option.map_some, hsum]
      rfl
  have hset : ∀ k, newEventset wideRegistry Topo.machine (.hierarchical (List.replicate k [102])) =
      some (.hierarchical (List.replicate k 0), u32 (k * 65536)) := fun k => congrArg (Option.map _) (hadd k)
  have hchild : ∀ c ∈ List.replicate 65537 0, c = 0 := fun c hc => List.eq_of_mem_replicate hc
  have hfree : ∀ c ∈ List.replicate 65537 0, 1 ≠ c ∧ (wideRegistry.mon c).mutex = none ∧
      (wideRegistry.mon c).eventset = .leaf := by
    intro c hc
    obtain rfl := hchild c hc
    exact ⟨by decide, rfl, rfl⟩
  obtain ⟨shown, writes, s', hread⟩ := exists_eventsetRead .main 0 0 hfree
  have hwidth : total (fun c => (wideRegistry.mon c).nSamples) (List.replicate 65537 0) = 65537 * 65536 :=
    total_replicate _ 65537 0
  have hcount := h _ _ _ _ _ (hset 65537) _ _ _ _ _ _ _ (fun _ _ => rfl) hread
  rw [← hwidth, hread.concatenates_iff fun _ _ => rfl, hwidth] at hcount
  exact absurd hcount (by decide)

end Hmon
