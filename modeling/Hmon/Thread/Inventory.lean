import Hmon.Lib.Observed
import Hmon.Thread.System
import Mathlib.Data.Multiset.Basic

/-!
# The inventory of the library

What the library is for its users between their calls: which monitors there are, what was asked for each, and which of
them are registered.

* `Attributes` : what the creation and the registration of a monitor say; `Inventory` : the monitors with their
  attributes, the registered ones and the allowed cpuset; `inventorySys` : what creation, registration and restriction
  do to it;
* `World.inventory`, `seen` : the inventory of the library, and what a step is to it;
* `Op.effect_attributes` : no operation of a thread changes the attributes of a monitor;
* `Inventory.Grows` : nothing leaves the inventory, and of a monitor only the display changes;
* `inventory_exact` : **in every interleaving the library is its inventory, which its calls change as they say and its
  threads never**.
-/

namespace Hmon
open Lib

variable {V M : Type}

/-- What is asked for when a monitor is created and registered. -/
structure Attributes (V M : Type) where
  id : CString
  location : Obj
  eventset : Eventset M
  nEvents : Nat
  window : Nat
  nSamples : Nat
  model : Option (Model V)
  output : Option Nat
  display : Nat

def Hmonitor.attributes {T : Type} (m : Hmonitor T V M) : Attributes V M :=
  ⟨m.id, m.location, m.eventset, m.nEvents, m.window, m.nSamples, m.model, m.output, m.display⟩

/-! ## The inventory -/

structure Inventory (V M : Type) where
  monitors : M → Option (Attributes V M)
  registered : Multiset M
  allowed : Cpuset

/-- `new_hmonitor`, `hmon_register_hmonitor` and `hmon_restrict`. -/
inductive InventoryCall (V M : Type)
  | create (m : M) (a : Attributes V M)
  | register (m : M) (display : Nat)
  | restrict (domain : Cpuset)

/-- A registration outside of the allowed cpuset and a restriction to more than it are refused. -/
def Inventory.next [DecidableEq M] (s : Inventory V M) : InventoryCall V M → Option (Inventory V M)
  | .create m a =>
    match s.monitors m with
    | none => some { s with monitors := Function.update s.monitors m (some a) }
    | some _ => none
  | .register m display =>
    (s.monitors m).map fun a =>
      if a.location.cpuset ⊆ s.allowed then
        { s with
          monitors := Function.update s.monitors m (some { a with display := display })
          registered := m ::ₘ s.registered }
      else s
  | .restrict domain => some (if domain ⊆ s.allowed then { s with allowed := domain } else s)

def inventorySys [DecidableEq M] : Lts (Inventory V M) (InventoryCall V M) := ⟨Inventory.next⟩

/-- Nothing leaves the inventory, and of a monitor only the display changes. -/
structure Inventory.Grows (s s' : Inventory V M) : Prop where
  monitors : ∀ m a, s.monitors m = some a → ∃ display, s'.monitors m = some { a with display := display }
  registered : s.registered ≤ s'.registered
  allowed : s'.allowed ⊆ s.allowed

namespace Inventory

theorem Grows.refl (s : Inventory V M) : s.Grows s := ⟨fun _ a h => ⟨a.display, h⟩, le_refl _, Finset.Subset.refl _⟩

theorem Grows.trans {s t u : Inventory V M} (h : s.Grows t) (h' : t.Grows u) : s.Grows u := by
  refine ⟨fun m a ha => ?_, h.registered.trans h'.registered, h'.allowed.trans h.allowed⟩
  obtain ⟨d, hd⟩ := h.monitors m a ha
  obtain ⟨d', hd'⟩ := h'.monitors m _ hd
  exact ⟨d', hd'⟩

variable [DecidableEq M]

theorem next_grows {s s' : Inventory V M} {c : InventoryCall V M} (h : s.next c = some s') : s.Grows s' := by
  cases c with
  | create m a =>
    simp only [next] at h
    split at h
    · rename_i hm
      cases h
      refine ⟨fun x b hb => ⟨b.display, ?_⟩, le_refl _, Finset.Subset.refl _⟩
      have hx : x ≠ m := fun he => absurd ((he ▸ hm).symm.trans hb) (Option.some_ne_none b).symm
      exact (Function.update_of_ne hx _ _).trans hb
    · cases h
  | register m display =>
    obtain ⟨a, ha, rfl⟩ := Option.map_eq_some_iff.mp h
    split_ifs
    · refine ⟨fun x b hb => ?_, Multiset.le_cons_self _ _, Finset.Subset.refl _⟩
      by_cases hx : x = m
      · subst hx
        cases ha.symm.trans hb
        exact ⟨display, Function.update_self ..⟩
      · exact ⟨b.display, (Function.update_of_ne hx _ _).trans hb⟩
    · exact Grows.refl s
  | restrict domain =>
    cases h
    split_ifs with hd
    · exact ⟨fun _ b hb => ⟨b.display, hb⟩, le_refl _, hd⟩
    · exact Grows.refl s

theorem exec_grows {s s' : Inventory V M} {cs : List (InventoryCall V M)} (h : inventorySys.exec s cs = some s') :
    s.Grows s' :=
  Lts.exec_relation Grows.refl (fun _ _ _ => Grows.trans) (fun _ _ _ => next_grows) h

end Inventory

/-! ## No operation changes the attributes -/

section Operations
variable {T : Type}

theorem OnlyControl.attributes {m m' : Hmonitor T V M} (h : OnlyControl m m') : m'.attributes = m.attributes := by
  obtain ⟨stopped, owner, mutex, rfl⟩ := h
  rfl

theorem newHmonitor_asked [Double V] {self : T} {now : Int} {s : Spec V M} {m : Hmonitor T V M}
    (h : newHmonitor self now s = some m) : s.window ≠ 0 ∧ m.attributes = ⟨s.id, s.location, s.eventset, s.addedEvents,
      s.window, if s.plugin.isSome then s.nSamples else s.addedEvents, s.plugin.join, s.output, 0⟩ := by
  unfold newHmonitor at h
  by_cases hw : s.window = 0
  · rw [if_pos hw] at h
    cases h
  · rw [if_neg hw] at h
    cases h
    exact ⟨hw, rfl⟩

theorem Op.effect_attributes [Double V] {self : Thread} {a : Answer V} {mon : M → Hmonitor Thread V M} {op : Op M}
    {e : Effect V M} (h : op.effect self a mon = some e) : e.mon.attributes = (mon op.target).attributes := by
  rcases Op.effect_cases h with ⟨_, _, he⟩ | he | he | ⟨_, he⟩ | hcontrol
  · rw [he]
    rfl
  · rw [he, hmonitorReduce]
    split_ifs <;> rfl
  · rw [he]
    rfl
  · rw [he]
    rfl
  · exact hcontrol.attributes

theorem tasksetStop_attributes (running : Cpuset) (m : Hmonitor Thread V M) :
    (World.tasksetStop running m).mon.attributes = m.attributes := by
  unfold World.tasksetStop
  split_ifs <;> rfl

end Operations

/-! ## The inventory of the library -/

section Library
variable [DecidableEq M] {w w' : World V M}

def World.inventory (w : World V M) : Inventory V M where
  monitors m := if m ∈ w.lib.created then some (w.mon m).attributes else none
  registered := w.lib.registered
  allowed := w.lib.allowed

/-- What a request asks for; the plugin says how many events there are. -/
def Request.attributes (L : Registry V M) (r : Request V) : Option (Attributes V M) :=
  if r.window = 0 then none
  else (newEventset L r.location r.plugin).map fun (eventset, added) =>
    ⟨r.id, r.location, eventset, added, r.window, if r.model.isSome then r.nSamples else added, r.model.join, r.output, 0⟩

/-- What a step is to the inventory. -/
def seen (w : World V M) : Label V M → Option (InventoryCall V M)
  | .create _ _ m r => (r.attributes w.lib).map (.create m)
  | .register m display => some (.register m display)
  | .restrict domain => some (.restrict domain)
  | _ => none

omit [DecidableEq M] in
/-- `new_hmonitor` gives what was asked for. -/
theorem newHmonitor_attributes [Double V] {L : Registry V M} {t : Thread} {now : Int} {r : Request V}
    {h : Hmonitor Thread V M} (hh : L.newHmonitor t now r = some h) : r.attributes L = some h.attributes := by
  obtain ⟨⟨eventset, added⟩, hev, hh⟩ := Option.bind_eq_some_iff.mp hh
  obtain ⟨hw, ha⟩ := newHmonitor_asked hh
  unfold Request.attributes
  rw [if_neg hw, hev, ha]
  rfl

theorem World.inventory_congr (hc : w'.lib.created = w.lib.created) (hr : w'.lib.registered = w.lib.registered)
    (ha : w'.lib.allowed = w.lib.allowed) (hm : ∀ m, (w'.mon m).attributes = (w.mon m).attributes) :
    w'.inventory = w.inventory := by
  unfold inventory
  rw [hr, ha, hc]
  simp only [hm]

theorem World.inventory_put {m : M} {x : Hmonitor Thread V M} (hx : x.attributes = (w.mon m).attributes)
    (events : List Event) : (w.put m x events).inventory = w.inventory := by
  refine inventory_congr rfl rfl rfl fun y => ?_
  show (Function.update w.lib.mon m x y).attributes = _
  by_cases hy : y = m
  · subst hy
    rw [Function.update_self]
    exact hx
  · rw [Function.update_of_ne hy]

theorem World.inventory_hmonitorsDo {call : M → Hmonitor Thread V M → Outcome Thread V M}
    (hc : ∀ m x, (call m x).mon.attributes = x.attributes) (ms : List M) (w : World V M) :
    (World.hmonitorsDo call ms w).inventory = w.inventory := by
  induction ms generalizing w with
  | nil => rfl
  | cons m ms ih => exact (ih _).trans (inventory_put (hc m (w.mon m)) _)

/-- A registration is refused outside of the allowed cpuset, and gives the monitor its display inside. -/
theorem register_result {L L' : Registry V M} {m : M} {display : Nat} {r : Int}
    (h : hmonRegisterHmonitor L m display = .ok (r, L')) :
    r = -1 ∧ ¬ (L.mon m).location.cpuset ⊆ L.allowed ∨ r = 0 ∧ (L'.mon m).display = display := by
  unfold hmonRegisterHmonitor at h
  by_cases hin : (L.mon m).location.cpuset ⊆ L.allowed
  · rw [if_neg (not_not_intro hin)] at h
    refine Or.inr ?_
    simp only [bind, Except.bind] at h
    split at h
    · cases h
    · split at h
      · cases h
      · split at h
        · cases h
        · simp only [Except.ok.injEq, Prod.mk.injEq] at h
          obtain ⟨rfl, rfl⟩ := h
          simp
  · rw [if_pos hin, Except.ok.injEq, Prod.mk.injEq] at h
    exact Or.inl ⟨h.1.symm, hin⟩

theorem inventory_create {m : M} {x : Hmonitor Thread V M} (hm : m ∉ w.lib.created) (ops : Thread → List (Op M)) :
    w.inventory.next (.create m x.attributes) = some (World.inventory { w with
      lib := { w.lib.setMon m x with created := m :: w.lib.created }
      todo := ops }) := by
  have hnone : w.inventory.monitors m = none := if_neg hm
  simp only [Inventory.next, hnone]
  refine congrArg some (Inventory.mk.injEq .. |>.mpr ⟨funext fun y => ?_, rfl, rfl⟩)
  show _ = if y ∈ m :: w.lib.created then some ((w.lib.setMon m x).mon y).attributes else none
  by_cases hy : y = m
  · subst hy
    rw [Function.update_self, if_pos List.mem_cons_self, w.lib.setMon_mon_self]
  · rw [Function.update_of_ne hy, w.lib.setMon_mon_ne x hy]
    simp only [World.inventory, List.mem_cons, hy, false_or]

theorem inventory_register (hs : w.lib.Sound) {m : M} {display : Nat} {r : Int} {L : Registry V M}
    (hm : m ∈ w.lib.created) (hr : hmonRegisterHmonitor w.lib m display = .ok (r, L)) :
    w.inventory.next (.register m display) = some (World.inventory { w with lib := L }) := by
  have hsome : w.inventory.monitors m = some (w.mon m).attributes := if_pos hm
  simp only [Inventory.next, hsome, Option.map_some]
  rcases register_cases hs hr with ⟨rfl, rfl⟩ | ⟨rfl, hreg⟩
  · rcases register_result hr with ⟨-, hout⟩ | ⟨h, -⟩
    · exact congrArg some (if_neg hout)
    · cases h
  · rcases register_result hr with ⟨h, -⟩ | ⟨-, hdisplay⟩
    · cases h
    · rw [if_pos (show (w.mon m).attributes.location.cpuset ⊆ w.inventory.allowed from hreg.inside)]
      refine congrArg some (Inventory.mk.injEq .. |>.mpr ⟨funext fun y => ?_, ?_, hreg.allowed.symm⟩)
      · obtain ⟨d, owner, hmon⟩ := hreg.mon
        rw [hmon, Function.update_self] at hdisplay
        show _ = if y ∈ L.created then some (L.mon y).attributes else none
        rw [hmon, hreg.created]
        by_cases hy : y = m
        · subst hy
          rw [Function.update_self, Function.update_self, if_pos hm]
          cases hdisplay
          rfl
        · rw [Function.update_of_ne hy, Function.update_of_ne hy]
          rfl
      · exact (Multiset.coe_eq_coe.mpr hreg.registered).symm

/-- A step is the call that is seen, or leaves the inventory alone. -/
theorem inventory_step [Double V] (hp : w.Proper) {l : Label V M} (hn : hmonNext w l = some w') :
    inventorySys.exec w.inventory (seen w l).toList = some w'.inventory := by
  have call {c : InventoryCall V M} (h : w.inventory.next c = some w'.inventory) :
      inventorySys.exec w.inventory [c] = some w'.inventory := by
    rw [Lts.exec_cons_eq_some]
    exact ⟨_, h, rfl⟩
  have same (h : w'.inventory = w.inventory) : inventorySys.exec w.inventory [] = some w'.inventory := by
    rw [h]
    rfl
  cases l with
  | create t now m r =>
    simp only [hmonNext] at hn
    split_ifs at hn with hc
    obtain ⟨h, hh, rfl⟩ := Option.map_eq_some_iff.mp hn
    simp only [seen, newHmonitor_attributes hh, Option.map_some, Option.toList_some]
    exact call (inventory_create hc.1 _)
  | register m display =>
    simp only [hmonNext] at hn
    split_ifs at hn with hm
    cases hr : hmonRegisterHmonitor w.lib m display with
    | error f => rw [hr] at hn; cases hn
    | ok res =>
      rw [hr] at hn
      cases hn
      exact call (inventory_register hp.sound hm hr)
  | restrict domain =>
    simp only [hmonNext] at hn
    refine call (congrArg some ?_)
    by_cases hd : domain ⊆ w.lib.allowed
    · rw [hmonRestrict_included hd] at hn
      cases hn
      exact if_pos hd
    · rw [hmonRestrict_forbidden hd] at hn
      cases hn
      exact if_neg hd
  | start t a =>
    simp only [hmonNext] at hn
    split_ifs at hn
    cases hn
    exact same (World.inventory_hmonitorsDo (fun _ x => (hmonitorStart_onlyControl _ _ x).attributes) _ w)
  | stop t a =>
    simp only [hmonNext] at hn
    split_ifs at hn
    cases hn
    exact same (World.inventory_hmonitorsDo (fun _ x => (hmonitorStop_onlyControl _ _ x).attributes) _ w)
  | taskset running =>
    simp only [hmonNext] at hn
    split_ifs at hn
    cases hn
    exact same (World.inventory_hmonitorsDo (fun _ x => tasksetStop_attributes running x) _ w)
  | call t op =>
    simp only [hmonNext] at hn
    split_ifs at hn
    cases hn
    exact same rfl
  | update =>
    simp only [hmonNext] at hn
    split_ifs at hn
    cases hn
    exact same rfl
  | step t a =>
    obtain ⟨op, ops, e, -, he, rfl⟩ := World.step_cases hn
    exact same (World.inventory_put (Op.effect_attributes he) e.events)

theorem hmonSys_seenAs [Double V] :
    Lts.SeenAs (hmonSys : Lts (World V M) _) inventorySys World.Proper World.inventory seen :=
  ⟨fun hp hn => hp.next hn, fun hp hn => inventory_step hp hn⟩

/-- **In every interleaving the library is its inventory, which its calls change as they say and its threads never;
nothing leaves it, and of a monitor only the display changes.** -/
theorem inventory_exact [Double V] {ok : World V M → Label V M → Prop} (hr : hmonSys.Reach Fresh ok w)
    {ls : List (Label V M)} (he : hmonSys.exec w ls = some w') :
    inventorySys.exec w.inventory (hmonSys.observed seen w ls) = some w'.inventory ∧ w.inventory.Grows w'.inventory := by
  have hexec := hmonSys_seenAs.exec (hmonSys_proper hr) he
  exact ⟨hexec, Inventory.exec_grows hexec⟩

end Library

/-! ## A round of a registered monitor -/

namespace Demo

/-- Monitor 0 is registered, the library is restricted to its core, and both threads go through a round. -/
def inventoryRun : List (Label ℚ ℕ) :=
  [.create .main 0 0 (leaf [1] (Topo.coreObj 0)), .register 0 1, .restrict {0}, .start .main fun _ => ok, .update] ++
    steps [0, 0, 0, 0]

def inventoryEnd : World ℚ ℕ := (hmonSys.exec init inventoryRun).get (by decide +kernel)

end Demo

open Demo in
/-- Three of its steps are seen. -/
theorem inventory_exact_round : (hmonSys.observed seen init inventoryRun).length = 3 ∧
    inventorySys.exec init.inventory (hmonSys.observed seen init inventoryRun) = some inventoryEnd.inventory ∧
    inventoryEnd.lib.registered = [0] := by
  have hinit : hmonSys.Reach Fresh Lts.always init := .init init_fresh
  have hexec : hmonSys.exec init inventoryRun = some inventoryEnd := (Option.some_get _).symm
  exact ⟨by decide +kernel, (inventory_exact hinit hexec).1, by decide +kernel⟩

end Hmon
