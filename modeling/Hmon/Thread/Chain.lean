import Hmon.Lib.Layered
import Hmon.Thread.Deadlock

/-!
# Chained monitors do not form cycles

A chained monitor looks its children up among the registered monitors while it is created, so a child is older than
its parents.

* `World.children` : the children of a monitor; `ChildEvent` : the relation on allocated monitors;
* `hmonSys_layered` : in every reachable state the monitors are layered by creation;
* `Op.weight` : the operations that a call makes, its children's calls included; `roundSys_bounded` : no thread runs
  longer than the weight of what it has to do;
* `RegisteredBefore` : where a child was registered; `chaining_well_founded` : **children are registered before their
  parents are created, the relation is acyclic, and every recursive read or reset comes to an end**.
-/

namespace Hmon
open Lib

variable {V M : Type}

/-- The child events of a monitor. -/
abbrev World.children (w : World V M) (m : M) : List M := (w.mon m).eventset.childEvents

/-- `c` is a child event of the existing monitor `p`. -/
def ChildEvent (w : World V M) (p c : M) : Prop := p ∈ w.lib.created ∧ c ∈ w.children p

section Steps
variable [DecidableEq M] {w w' : World V M}

/-! ## The children of a monitor are fixed at its creation -/

/-- The same monitors with the same children. -/
structure SameChildren (w w' : World V M) : Prop where
  created : w'.lib.created = w.lib.created
  children : w'.children = w.children

theorem SameChildren.put {m : M} {x : Hmonitor Thread V M} (hs : SameShape (w.mon m) x) (events : List Event) :
    SameChildren w (w.put m x events) := by
  refine ⟨rfl, funext fun y => ?_⟩
  show (Function.update w.lib.mon m x y).eventset.childEvents = _
  by_cases hy : y = m
  · subst hy
    rw [Function.update_self, hs.eventset]
  · rw [Function.update_of_ne hy]

omit [DecidableEq M] in
theorem SameChildren.trans {w₁ w₂ w₃ : World V M} (h : SameChildren w₁ w₂) (h' : SameChildren w₂ w₃) :
    SameChildren w₁ w₃ := ⟨h'.created.trans h.created, h'.children.trans h.children⟩

theorem SameChildren.hmonitorsDo {call : M → Hmonitor Thread V M → Outcome Thread V M}
    (hc : ∀ m x, SameShape x (call m x).mon) (ms : List M) (w : World V M) :
    SameChildren w (World.hmonitorsDo call ms w) := by
  induction ms generalizing w with
  | nil => exact ⟨rfl, rfl⟩
  | cons m ms ih => exact (SameChildren.put (hc m (w.mon m)) _).trans (ih _)

theorem SameChildren.step [Double V] {t : Thread} {a : Answer V} (hn : w.step a t = some w') : SameChildren w w' := by
  obtain ⟨op, ops, e, -, he, rfl⟩ := World.step_cases hn
  have h := SameChildren.put (Op.effect_shape he) e.events
  exact ⟨h.created, h.children⟩

theorem SameChildren.register {m : M} {L : Registry V M} (hr : Registers w.lib m L) :
    SameChildren w { w with lib := L } := by
  obtain ⟨display, owner, hmon⟩ := hr.mon
  refine ⟨hr.created, funext fun y => ?_⟩
  show (L.mon y).eventset.childEvents = _
  rw [hmon]
  by_cases hy : y = m
  · rw [hy, Function.update_self]
  · rw [Function.update_of_ne hy]

/-- A step creates a monitor over registered ones, or changes no children. -/
theorem hmonNext_children [Double V] {l : Label V M} (hp : w.Proper) (hn : hmonNext w l = some w') :
    SameChildren w w' ∨ ∃ t now m r, l = .create t now m r ∧ m ∉ w.lib.created ∧
      w'.lib.created = m :: w.lib.created ∧ (∀ c ∈ w'.children m, c ∈ w.lib.registered) ∧
      ∀ y ≠ m, w'.children y = w.children y := by
  cases hmonNext_cases hp.sound hn with
  | refused => exact Or.inl ⟨rfl, rfl⟩
  | @create t now m r x hm _ hx =>
    refine Or.inr ⟨t, now, m, r, rfl, hm, rfl, fun c hc => ?_, fun y hy => ?_⟩
    · obtain ⟨⟨ev, n⟩, he, hx⟩ := Option.bind_eq_some_iff.mp hx
      obtain ⟨-, -, -, hev⟩ := newHmonitor_fresh hx
      have hself : (w.lib.setMon m x).mon m = x := w.lib.setMon_mon_self m x
      have hc : c ∈ ((w.lib.setMon m x).mon m).eventset.childEvents := hc
      rw [hself, hev] at hc
      exact newEventset_registered hp.sound he c hc
    · show ((w.lib.setMon m x).mon y).eventset.childEvents = _
      rw [w.lib.setMon_mon_ne x hy]
  | register _ hreg => exact Or.inl (.register hreg)
  | restrict | call | update => exact Or.inl ⟨rfl, rfl⟩
  | start => exact Or.inl (.hmonitorsDo (fun _ x => hmonitorStart_shape _ _ x) _ _)
  | stop => exact Or.inl (.hmonitorsDo (fun _ x => hmonitorStop_shape _ _ x) _ _)
  | taskset => exact Or.inl (.hmonitorsDo (fun _ x => World.tasksetStop_shape _ x) _ _)
  | step hs => exact Or.inl (.step hs)

theorem hmonNext_layered [Double V] {l : Label V M} (hp : w.Proper) (h : Layered w.children w.lib.created)
    (hn : hmonNext w l = some w') : Layered w'.children w'.lib.created := by
  rcases hmonNext_children hp hn with hs | ⟨t, now, m, r, -, hm, hcr, hch, hold⟩
  · rw [hs.created, hs.children]
    exact h
  · rw [hcr]
    refine ⟨hm, fun c hc => hp.created c (hch c hc), h.congr fun p hpc => hold p ?_⟩
    rintro rfl
    exact hm hpc

/-- In every reachable state the monitors are layered by their creation. -/
theorem hmonSys_layered [Double V] {ok : World V M → Label V M → Prop} (h : hmonSys.Reach Fresh ok w) :
    Layered w.children w.lib.created := by
  refine Lts.Reach.invariant_of (J := World.Proper) (fun _ => hmonSys_proper) ?_
    (fun _ _ _ hp hi _ hn => hmonNext_layered hp hi hn) h
  rintro _ ⟨topo, mon, rfl⟩
  trivial

/-! ## Children are registered first -/

/-- The child `c` was registered before the step of the run `ls` that created `p`. -/
def RegisteredBefore [Double V] (w₀ : World V M) (ls : List (Label V M)) (p c : M) : Prop :=
  ∃ ls₁ t now r ls₂, ls = ls₁ ++ .create t now p r :: ls₂ ∧ p ∉ (hmonSys.tryAll w₀ ls₁).lib.created ∧
    c ∈ (hmonSys.tryAll w₀ ls₁).lib.registered

theorem child_registered_before [Double V] {w₀ : World V M} (h₀ : Fresh w₀) (ls : List (Label V M)) {p c : M}
    (h : ChildEvent (hmonSys.tryAll w₀ ls) p c) : RegisteredBefore w₀ ls p c := by
  induction ls using List.reverseRecOn with
  | nil =>
    obtain ⟨topo, mon, rfl⟩ := h₀
    exact absurd h.1 List.not_mem_nil
  | append_singleton ls l ih =>
    have later : ChildEvent (hmonSys.tryAll w₀ ls) p c → RegisteredBefore w₀ (ls ++ [l]) p c := by
      intro hold
      obtain ⟨ls₁, t, now, r, ls₂, rfl, hp, hc⟩ := ih hold
      exact ⟨ls₁, t, now, r, ls₂ ++ [l], by simp, hp, hc⟩
    rw [Lts.tryAll_append] at h
    have hreach : hmonSys.Reach Fresh Lts.always (hmonSys.tryAll w₀ ls) := .tryAll (.init h₀) fun _ _ _ => trivial
    have hproper : (hmonSys.tryAll w₀ ls).Proper := hmonSys_proper hreach
    cases hn : hmonNext (hmonSys.tryAll w₀ ls) l with
    | none =>
      have hsame : hmonSys.tryAll (hmonSys.tryAll w₀ ls) [l] = hmonSys.tryAll w₀ ls := by
        show (hmonNext _ l).getD _ = _
        rw [hn]
        rfl
      rw [hsame] at h
      exact later h
    | some w' =>
      have hsome : hmonSys.tryAll (hmonSys.tryAll w₀ ls) [l] = w' := by
        show (hmonNext _ l).getD _ = _
        rw [hn]
        rfl
      rw [hsome] at h
      obtain ⟨hp, hc⟩ := h
      rcases hmonNext_children hproper hn with hs | ⟨t, now, m, r, rfl, hm, hcr, hch, hold⟩
      · rw [hs.created] at hp
        rw [hs.children] at hc
        exact later ⟨hp, hc⟩
      · by_cases hpm : p = m
        · subst hpm
          exact ⟨ls, t, now, r, [], rfl, hm, hch c hc⟩
        · rw [hcr] at hp
          rw [hold p hpm] at hc
          exact later ⟨(List.mem_cons.mp hp).resolve_left hpm, hc⟩

/-! ## Every recursion ends -/

/-- The operations that one operation stands for, when a read or a reset of `m` takes `cost m`. -/
def Op.weight (cost : M → Nat) : Op M → Nat
  | .read m | .reset m => cost m
  | .lockChild c => cost c + 3
  | .blocked _ => 2
  | _ => 1

omit [DecidableEq M] in
theorem hierarchicalRead_weight (cost : M → Nat) (mon : M → Hmonitor Thread V M) (m : M) (base : Nat) (cs : List M) :
    total (Op.weight cost) (hierarchicalRead mon m base cs) = total (fun c => cost c + 4) cs := by
  induction cs generalizing base with
  | nil => rfl
  | cons c cs ih =>
    rw [hierarchicalRead, total_cons, total_cons, total_cons, ih]
    simp only [Op.weight]
    omega

omit [DecidableEq M] in
theorem accumulateRead_weight (cost : M → Nat) {m : M} {base : Nat} {cs : List M} {ops : List (Op M)}
    (h : accumulateRead m base cs = some ops) : total (Op.weight cost) ops ≤ total (fun c => cost c + 4) cs := by
  cases cs with
  | nil => cases h
  | cons c cs =>
    cases h
    have hrest : total (Op.weight cost) (cs.flatMap fun d => [Op.lockChild d, .addEvents m base d]) =
        total (fun c => cost c + 4) cs := by
      induction cs with
      | nil => rfl
      | cons d ds ih =>
        rw [List.flatMap_cons, total_append, total_cons, total_cons, total_cons, total_nil, ih]
        simp only [Op.weight]
    simp only [total_cons, hrest, Op.weight]
    omega

omit [DecidableEq M] in
/-- An operation weighs more than what it leaves to do. -/
theorem Op.effect_weight [Double V] {cost : M → Nat} {self : Thread} {a : Answer V} {mon : M → Hmonitor Thread V M}
    {op : Op M} {e : Effect V M}
    (hc : total (fun c => cost c + 4) (mon op.target).eventset.childEvents + 2 ≤ cost op.target)
    (h : op.effect self a mon = some e) : total (Op.weight cost) e.ops < op.weight cost := by
  cases op with
  | read m =>
    simp only [effect] at h
    simp only [Op.target] at hc
    by_cases ho : (mon m).owner = self
    · rw [if_pos ho] at h
      cases hev : (mon m).eventset with
      | leaf =>
        rw [hev] at h
        cases h
        simp only [Outcome.effect, total_nil, weight]
        omega
      | hierarchical cs =>
        rw [hev] at h hc
        cases h
        rw [total_append, hierarchicalRead_weight]
        simp only [total_cons, total_nil, weight, Eventset.childEvents] at hc ⊢
        omega
      | accumulate cs =>
        rw [hev] at h hc
        obtain ⟨ops, hops, rfl⟩ := Option.map_eq_some_iff.mp h
        have := accumulateRead_weight cost hops
        rw [total_append]
        simp only [total_cons, total_nil, weight, Eventset.childEvents] at hc ⊢
        omega
    · rw [if_neg ho] at h
      cases h
      simp only [total_nil, weight]
      omega
  | reset m =>
    cases h
    have hle : total (Op.weight cost) ((mon m).eventset.childEvents.map .reset) ≤
        total (fun c => cost c + 4) (mon m).eventset.childEvents := by
      rw [total_map]
      exact total_le fun c _ => Nat.le_add_right _ _
    simp only [weight, Op.target] at hc ⊢
    omega
  | lockChild c =>
    have hpush : total (Op.weight cost) [.read c, .reduce c, .release c] = cost c + 2 := rfl
    rcases Op.lockChild_cases h with ⟨-, rfl⟩ | ⟨-, -, rfl⟩ | ⟨-, -, rfl⟩
    · rw [hpush]
      exact Nat.lt_succ_self _
    · rw [hpush]
      exact Nat.lt_succ_self _
    · simp only [total_cons, total_nil, weight]
      omega
  | blocked c =>
    simp only [effect] at h
    split_ifs at h
    cases h
    exact Nat.lt_succ_self 1
  | start m | stop m | reduce m | unlock c | release c | readDone m => cases h; exact Nat.zero_lt_one
  | copySamples m base c | copyEvents m base c | addEvents m base c => cases h; exact Nat.zero_lt_one

/-- The weight of what all threads have left to do. -/
def World.weight (cost : M → Nat) (w : World V M) : Nat :=
  total (fun t => total (Op.weight cost) (w.todo t)) w.lib.threads

/-- A cost pays for the children of every monitor. -/
def Pays (cost : M → Nat) (w : World V M) : Prop :=
  ∀ p ∈ w.lib.created, total (fun c => cost c + 4) (w.children p) + 2 ≤ cost p

theorem step_weight [Double V] {cost : M → Nat} (hp : w.Proper) (hl : w.Live) (hc : Pays cost w) {t : Thread}
    {a : Answer V} (hn : w.step a t = some w') : w'.weight cost < w.weight cost := by
  obtain ⟨op, ops, e, htodo, he, rfl⟩ := World.step_cases hn
  have htarget : op.target ∈ w.lib.created := hl.targets t op (by rw [htodo]; exact List.mem_cons_self)
  have ht : t ∈ w.lib.threads := by
    by_contra hout
    rw [hp.outside t hout] at htodo
    cases htodo
  have hlt : total (Op.weight cost) ((w.commit t op.target e ops).todo t) < total (Op.weight cost) (w.todo t) := by
    rw [World.commit_todo_self, htodo, total_append, total_cons]
    exact Nat.add_lt_add_right (Op.effect_weight (hc _ htarget) he) _
  refine total_lt ht hlt fun u _ => ?_
  by_cases hu : u = t
  · subst hu
    exact hlt.le
  · rw [World.commit_todo_ne _ _ _ _ _ hu]

/-- What the threads have to do bounds every run of theirs. -/
theorem roundSys_bounded [Double V] {cost : M → Nat} {ls : List (Thread × Answer V)} (hp : w.Proper) (hl : w.Live)
    (hc : Pays cost w) (hn : roundSys.exec w ls = some w') : ls.length + w'.weight cost ≤ w.weight cost := by
  induction ls generalizing w with
  | nil =>
    cases hn
    exact (Nat.zero_add _).le
  | cons l ls ih =>
    obtain ⟨w₁, h1, h2⟩ := Lts.exec_cons_eq_some.mp hn
    have hs := SameChildren.step h1
    have hc₁ : Pays cost w₁ := by
      unfold Pays
      rw [hs.created, hs.children]
      exact hc
    have := ih (hp.step h1) (hl.step h1) hc₁ h2
    have hlt := step_weight hp hl hc h1
    rw [List.length_cons]
    omega

/-! ## A call on monitors that nobody locked returns -/

/-- Creations and registrations, and the resets that a creation makes. -/
def builds : Label V M → Bool
  | .create _ _ _ _ | .register _ _ | .step _ _ => true
  | _ => false

abbrev Builds (_ : World V M) (l : Label V M) : Prop := builds l = true

/-- No monitor is locked and the threads only reset monitors. -/
structure Unlocked (w : World V M) : Prop where
  mutex : ∀ m ∈ w.lib.created, (w.mon m).mutex = none
  resets : ∀ t, ∀ op ∈ w.todo t, ∃ c, op = .reset c

theorem Unlocked.next [Double V] {l : Label V M} (hp : w.Proper) (h : Unlocked w) (hok : Builds w l)
    (hn : hmonNext w l = some w') : Unlocked w' := by
  cases hmonNext_cases hp.sound hn with
  | refused => exact h
  | @create t now m r x hm _ hx =>
    refine ⟨fun y hy => ?_, (Function.forall_update_iff w.todo fun _ ops => ∀ op ∈ ops, ∃ c, op = .reset c).mpr
      ⟨fun op hop => ?_, fun u _ => h.resets u⟩⟩
    · show ((w.lib.setMon m x).mon y).mutex = none
      by_cases hym : y = m
      · obtain ⟨_, -, hx⟩ := Option.bind_eq_some_iff.mp hx
        rw [hym, Registry.setMon_mon_self]
        exact (newHmonitor_fresh hx).2.2.1
      · rw [w.lib.setMon_mon_ne x hym]
        exact h.mutex y ((List.mem_cons.mp hy).resolve_left hym)
    · obtain ⟨c, -, rfl⟩ := List.mem_map.mp hop
      exact ⟨c, rfl⟩
  | @register m display L hm hreg =>
    refine ⟨fun y hy => ?_, h.resets⟩
    obtain ⟨d, owner, hmon⟩ := hreg.mon
    have hy : y ∈ w.lib.created := hreg.created ▸ hy
    show (L.mon y).mutex = none
    rw [hmon]
    by_cases hym : y = m
    · rw [hym, Function.update_self]
      exact h.mutex m hm
    · rw [Function.update_of_ne hym]
      exact h.mutex y hy
  | step hs =>
    obtain ⟨op, ops, e, htodo, he, rfl⟩ := World.step_cases hs
    rename_i t a
    obtain ⟨c, rfl⟩ := h.resets t op (by rw [htodo]; exact List.mem_cons_self)
    cases he
    refine ⟨fun y hy => ?_, w.commit_todo_all (Q := fun l => ∀ op ∈ l, ∃ c, op = .reset c) t _ _ ops h.resets
      fun op hop => ?_⟩
    · by_cases hyc : y = c
      · subst hyc
        rw [show (Op.reset y).target = y from rfl, World.commit_mon_self]
        exact h.mutex y hy
      · rw [World.commit_mon_ne w t _ _ ops (show y ≠ (Op.reset c).target from hyc)]
        exact h.mutex y hy
    · rcases List.mem_append.mp hop with hop | hop
      · obtain ⟨d, -, rfl⟩ := List.mem_map.mp hop
        exact ⟨d, rfl⟩
      · exact h.resets t op (by rw [htodo]; exact List.mem_cons_of_mem _ hop)
  | restrict | start | stop | taskset | call | update => cases hok

theorem unlocked_reach [Double V] (h : hmonSys.Reach Fresh Builds w) : Unlocked w := by
  refine Lts.Reach.invariant_of (J := World.Proper) (fun _ => hmonSys_proper) ?_
    (fun _ _ _ hp hi hok hn => Unlocked.next hp hi hok hn) h
  rintro _ ⟨topo, mon, rfl⟩
  exact ⟨fun _ hm => absurd hm List.not_mem_nil, fun _ _ hop => absurd hop List.not_mem_nil⟩

/-- Every locked mutex is the thread's own, as owner, and it does not wait. -/
structure Alone (t : Thread) (w : World V M) : Prop where
  owner : ∀ c ∈ w.lib.created, (w.mon c).mutex ≠ none → (w.mon c).owner = t
  unblocked : ∀ c, .blocked c ∉ w.todo t

/-- The thread is about to dereference the first child of an accumulating monitor that has none. -/
def Crashes (w : World V M) (t : Thread) : Prop :=
  ∃ m ops, w.todo t = .read m :: ops ∧ (w.mon m).eventset = .accumulate []

omit [DecidableEq M] in
/-- An operation of the thread on a monitor that it owns or that is not locked leaves it so. -/
theorem Op.effect_alone [Double V] {self : Thread} {a : Answer V} {mon : M → Hmonitor Thread V M} {op : Op M}
    {e : Effect V M} (ho : (mon op.target).mutex ≠ none → (mon op.target).owner = self) (hb : ∀ c, op ≠ .blocked c)
    (h : op.effect self a mon = some e) :
    (e.mon.mutex ≠ none → e.mon.owner = self) ∧ ∀ c, .blocked c ∉ e.ops := by
  cases op with
  | start m =>
    cases h
    simp only [Outcome.effect, hmonitorStart, Op.target, Hmon.unlock] at ho ⊢
    split_ifs
    · exact ⟨ho, fun _ => List.not_mem_nil⟩
    · exact ⟨ho, fun _ => List.not_mem_nil⟩
    · exact ⟨fun hm => absurd rfl hm, fun _ => List.not_mem_nil⟩
    · exact ⟨ho, fun _ => List.not_mem_nil⟩
  | stop m =>
    cases h
    refine ⟨?_, fun _ => List.not_mem_nil⟩
    by_cases hs : (mon m).stopped = true
    · rw [hmonitorStop_of_stopped self a hs]
      exact ho
    · rw [Bool.not_eq_true] at hs
      rw [hmonitorStop_of_running self a hs]
      exact fun _ => rfl
  | lockChild c =>
    rcases Op.lockChild_cases h with ⟨-, rfl⟩ | ⟨-, -, rfl⟩ | ⟨hm, hne, -⟩
    · exact ⟨fun _ => rfl, by simp⟩
    · exact ⟨ho, by simp⟩
    · exact absurd (ho hm) hne
  | blocked c => exact absurd rfl (hb c)
  | unlock c => cases h; exact ⟨fun hm => absurd rfl hm, fun _ => List.not_mem_nil⟩
  | release c =>
    cases h
    simp only [hmonitorRelease, Op.target, Hmon.unlock] at ho ⊢
    split_ifs
    · exact ⟨fun hm => absurd rfl hm, fun _ => List.not_mem_nil⟩
    · exact ⟨ho, fun _ => List.not_mem_nil⟩
  | reset m => cases h; exact ⟨ho, by simp⟩
  | read | reduce | copySamples | copyEvents | addEvents | readDone =>
    have hc := Op.effect_quiet rfl h
    refine ⟨by rw [hc.mutex, hc.owner]; exact ho, ?_⟩
    rcases (Op.effect_pushes h).unblocked with hu | ⟨c, hlock, -⟩
    · exact hu
    · cases hlock

theorem Alone.step [Double V] {t : Thread} {a : Answer V} (hl : w.Live) (h : Alone t w) (hn : w.step a t = some w') :
    Alone t w' := by
  obtain ⟨op, ops, e, htodo, he, rfl⟩ := World.step_cases hn
  have hop : op ∈ w.todo t := by
    rw [htodo]
    exact List.mem_cons_self
  obtain ⟨howner, hblocked⟩ := Op.effect_alone (h.owner _ (hl.targets t op hop))
    (fun c hc => h.unblocked c (hc ▸ hop)) he
  refine ⟨fun c hc hm => ?_, fun c hmem => ?_⟩
  · by_cases hco : c = op.target
    · subst hco
      rw [World.commit_mon_self] at hm ⊢
      exact howner hm
    · rw [World.commit_mon_ne _ _ _ _ _ hco] at hm ⊢
      exact h.owner c hc hm
  · rw [World.commit_todo_self] at hmem
    rcases List.mem_append.mp hmem with hmem | hmem
    · exact hblocked c hmem
    · exact h.unblocked c (by rw [htodo]; exact List.mem_cons_of_mem op hmem)

/-- A thread that is alone is done, or goes on, or crashes. -/
theorem Alone.progress [Double V] {t : Thread} (h : Alone t w) :
    w.todo t = [] ∨ (∀ a : Answer V, (w.step a t).isSome = true) ∨ Crashes w t := by
  unfold Crashes World.step
  have hb := h.unblocked
  cases htodo : w.todo t with
  | nil => exact Or.inl rfl
  | cons op ops =>
    rw [htodo] at hb
    refine Or.inr ?_
    simp only [Option.isSome_map]
    cases op with
    | read m =>
      by_cases hcr : (w.mon m).eventset = .accumulate []
      · exact Or.inr ⟨m, ops, rfl, hcr⟩
      · refine Or.inl fun a => ?_
        simp only [Op.effect]
        split_ifs
        · split
          · rfl
          · rfl
          · rename_i cs hev
            cases cs with
            | nil => exact absurd hev hcr
            | cons c cs => rfl
        · rfl
    | lockChild c =>
      refine Or.inl fun a => ?_
      simp only [Op.effect]
      split <;> rfl
    | blocked c => exact absurd List.mem_cons_self (hb c)
    | _ => exact Or.inl fun _ => rfl

/-- The thread `t` calls `op` in `w`. -/
def World.calling (w : World V M) (t : Thread) (op : Op M) : World V M :=
  { w with todo := Function.update w.todo t [op] }

/-- The call returns: however the plugins answer, the thread always goes on until it is done, and it is so after a
bounded number of operations. -/
def Returns [Double V] (w : World V M) (t : Thread) (op : Op M) : Prop :=
  ∃ N, ∀ ls w', (∀ l ∈ ls, l.1 = t) → roundSys.exec (w.calling t op) ls = some w' → ls.length ≤ N ∧
    (w'.todo t = [] ∨ (∀ a : Answer V, (w'.step a t).isSome = true) ∨ Crashes w' t)

/-- A run of one thread that is alone. -/
theorem Alone.run [Double V] {t : Thread} {ls : List (Thread × Answer V)} (hl : w.Live) (h : Alone t w)
    (ht : ∀ l ∈ ls, l.1 = t) (hn : roundSys.exec w ls = some w') : Alone t w' := by
  induction ls generalizing w with
  | nil => cases hn; exact h
  | cons l ls ih =>
    obtain ⟨w₁, h1, h2⟩ := Lts.exec_cons_eq_some.mp hn
    obtain rfl := ht l List.mem_cons_self
    exact ih (hl.step h1) (h.step hl h1) (fun l' hl' => ht l' (List.mem_cons_of_mem l hl')) h2

/-- The operations of the threads come to an end in every layered state. -/
theorem exists_bound [Double V] (hp : w.Proper) (hl : w.Live) (hy : Layered w.children w.lib.created) :
    ∃ N, ∀ (run : List (Thread × Answer V)) (w' : World V M), roundSys.exec w run = some w' → run.length ≤ N := by
  obtain ⟨cost, hcost⟩ := hy.cost 4 2
  exact ⟨w.weight cost, fun run w' hn => (Nat.le_add_right _ _).trans (roundSys_bounded hp hl hcost hn)⟩

/-- A call returns when nobody locked a monitor. -/
theorem Unlocked.returns [Double V] (hp : w.Proper) (hl : w.Live) (hy : Layered w.children w.lib.created)
    (hu : Unlocked w) {t : Thread} (ht : t ∈ w.lib.threads) {op : Op M} (hop : op.target ∈ w.lib.created)
    (hb : ∀ c, op ≠ .blocked c) : Returns w t op := by
  have hl' : (w.calling t op).Live := hl.call hop
  obtain ⟨N, hN⟩ := exists_bound (hp.call ht op) hl' hy
  have halone : Alone t (w.calling t op) := by
    refine ⟨fun c hc hmx => absurd (hu.mutex c hc) hmx, fun c hc => ?_⟩
    rw [show (w.calling t op).todo t = [op] from Function.update_self .., List.mem_singleton] at hc
    exact hb c hc.symm
  exact ⟨N, fun run w' hrt hn => ⟨hN run w' hn, (halone.run hl' hrt hn).progress⟩⟩

/-- **Chaining is well founded.** After any sequence of calls the children of a monitor were registered before it was
created, the child relation has no cycle, and whatever the threads have to do ends after a bounded number of
operations; after creations and registrations alone, every recursive read or reset returns. -/
theorem chaining_well_founded [Double V] {w₀ : World V M} (h₀ : Fresh w₀) (ls : List (Label V M)) :
    (∀ p c, ChildEvent (hmonSys.tryAll w₀ ls) p c → RegisteredBefore w₀ ls p c) ∧
      Acyclic (ChildEvent (hmonSys.tryAll w₀ ls)) ∧
      (∃ N, ∀ (run : List (Thread × Answer V)) (w' : World V M),
        roundSys.exec (hmonSys.tryAll w₀ ls) run = some w' → run.length ≤ N) ∧
      ((∀ l ∈ ls, builds l = true) → ∀ t ∈ (hmonSys.tryAll w₀ ls).lib.threads,
        ∀ m ∈ (hmonSys.tryAll w₀ ls).lib.created,
          Returns (hmonSys.tryAll w₀ ls) t (.read m) ∧ Returns (hmonSys.tryAll w₀ ls) t (.reset m)) := by
  have hr : hmonSys.Reach Fresh Lts.always (hmonSys.tryAll w₀ ls) :=
    Lts.Reach.tryAll (.init h₀) fun _ _ _ => trivial
  have hy := hmonSys_layered hr
  have hp := hmonSys_proper hr
  have hl := hmonSys_live hr
  refine ⟨fun p c h => child_registered_before h₀ ls h, hy.acyclic, exists_bound hp hl hy, fun hb t ht m hm => ?_⟩
  have hu : Unlocked (hmonSys.tryAll w₀ ls) :=
    unlocked_reach (Lts.Reach.tryAll (.init h₀) fun _ l hmem => hb l hmem)
  exact ⟨hu.returns hp hl hy ht hm (by simp), hu.returns hp hl hy ht hm (by simp)⟩

end Steps

/-! ## Monitors over monitors of their own name -/

namespace Chained
open Demo

/-- Two leaves and two hierarchical monitors over them, all named `1`; monitor 4 over an unknown name is not created. -/
def setup : List (Label ℚ ℕ) :=
  [.create .main 0 0 (leaf [1] (Topo.coreObj 0)), .register 0 0, .create .main 0 1 (leaf [1] (Topo.coreObj 1)),
    .register 1 0, .create .main 0 4 (hierarchical [1] Topo.machine [[7]]), .register 4 0,
    .create .main 0 2 (hierarchical [1] Topo.machine [[1]]), .step .main ok, .step .main ok, .register 2 0,
    .create .main 0 3 (hierarchical [1] Topo.machine [[1]])]

def built : World ℚ ℕ := hmonSys.tryAll init setup

end Chained

open Chained Demo in
/-- Monitor 3 has monitor 2, of its own name and object, among its children. -/
theorem chaining_well_founded_named : built.lib.created = [3, 2, 1, 0] ∧ built.children 3 = [2, 0, 1] ∧
    Acyclic (ChildEvent built) :=
  ⟨by decide +kernel, by decide +kernel, (chaining_well_founded init_fresh setup).2.1⟩

end Hmon
