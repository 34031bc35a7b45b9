import Hmon.Barrier.Coord
import Hmon.Thread.Collect

/-!
# What `hmon_update` prints

One thread calls `hmon_update`; the core threads make their passes between the second barrier and the first. The
output loop follows the second barrier, which is before the passes.

* `UpdateState`, `updateSys` : the barrier and the counter, the core threads' operations and the output loop;
* `Printed` : a call of `hmonitor_output`, with the log of the round at that moment;
* `OneCaller`, `opens_second_all` : the second barrier opens for all threads at once;
* `print_collected` : **a monitor that no thread has still to reduce when it is printed was read and reduced in the
  round**.
-/

namespace Hmon
open Lib

/-! ## The barrier with one caller -/

/-- Between the two barriers. -/
def CallerPhase.middle : CallerPhase → Bool
  | .toSecond | .inSecond => true
  | _ => false

/-- On the way out after `hmon_lib_finalize`. -/
def CorePhase.exiting : CorePhase → Bool
  | .toExit | .inExit | .exited => true
  | _ => false

/-- The library is not finalized, and each core thread is between the barriers when the caller is. -/
structure OneCaller {n : Nat} (c : Coord n Unit) : Prop where
  running : c.threadsStop = false
  phase : ∀ i, (c.core i).exiting = false ∧ (c.core i).middle = (c.caller ()).middle

/-- Every call but `hmon_lib_finalize`. -/
def NotFinalized {n : Nat} {C : Type} (_ : Coord n C) (l : CoordLabel n C) : Prop := ∀ c, l ≠ .finalize c

/-- The caller leaves the second barrier. -/
def opensSecond {n : Nat} (c c' : Coord n Unit) : Bool :=
  decide (c.caller () ≠ .after) && decide (c'.caller () = .after)

section OneCaller
variable {n : Nat} {c c' : Coord n Unit}

theorem oneCaller_init : OneCaller (Coord.init : Coord n Unit) := ⟨rfl, fun _ => ⟨rfl, rfl⟩⟩

/-- The phases stay in step when all threads leave the barrier. -/
theorem release_phase {p : CorePhase} {q : CallerPhase} (hp : p.waiting = true) (hq : q.waiting = true)
    (he : p.exiting = false) (hm : p.middle = q.middle) :
    p.release.exiting = false ∧ p.release.middle = q.release.middle ∧ (q.release = .after → p.release = .working) := by
  cases p <;> cases hp <;> cases q <;> cases hq <;> cases hm <;>
    first | exact ⟨rfl, rfl, fun _ => rfl⟩ | exact ⟨rfl, rfl, fun h => by cases h⟩ | cases he

/-- The only caller and all core threads wait when the barrier opens. -/
theorem barrier_cases (c : Coord n Unit) : c.barrier = c ∨
    c.barrier = c.release ∧ (∀ i, (c.core i).waiting = true) ∧ (c.caller ()).waiting = true := by
  rcases c.barrier_eq with hb | ⟨hb, hfull⟩
  · exact Or.inl hb
  · exact Or.inr ⟨hb, Coord.all_waiting (fun d hd => absurd (Subsingleton.elim d ()) hd) hfull⟩

theorem OneCaller.barrier (h : OneCaller c) : OneCaller c.barrier := by
  rcases barrier_cases c with hb | ⟨hb, hcore, hcaller⟩
  · rw [hb]
    exact h
  · rw [hb]
    refine ⟨h.running, fun i => ?_⟩
    have hr := release_phase (hcore i) hcaller (h.phase i).1 (h.phase i).2
    exact ⟨hr.1, hr.2.1⟩

/-- The core thread `i` moves to a phase on the same side of the barriers. -/
theorem OneCaller.core (h : OneCaller c) {i : Fin n} {p : CorePhase}
    (hp : p.exiting = false ∧ p.middle = (c.core i).middle) :
    OneCaller { c with core := Function.update c.core i p } :=
  ⟨h.running, (Function.forall_update_iff c.core fun _ q => q.exiting = false ∧ q.middle = (c.caller ()).middle).mpr
    ⟨⟨hp.1, hp.2.trans (h.phase i).2⟩, fun j _ => h.phase j⟩⟩

/-- The caller does. -/
theorem OneCaller.caller (h : OneCaller c) {p : CallerPhase} (hp : p.middle = (c.caller ()).middle) (k : Int)
    (ps : Finset (Fin n)) :
    OneCaller { c with uptodate := k, pending := ps, caller := Function.update c.caller () p } := by
  refine ⟨h.running, fun i => ⟨(h.phase i).1, (h.phase i).2.trans ?_⟩⟩
  show _ = (Function.update c.caller () p ()).middle
  rw [Function.update_self, hp]

theorem CorePhase.arrive_phase {p q : CorePhase} (h : p.arrive = some q) (he : p.exiting = false) :
    q.exiting = false ∧ q.middle = p.middle := by
  cases p <;> cases h <;> first | exact ⟨rfl, rfl⟩ | cases he

theorem CallerPhase.arrive_phase {p q : CallerPhase} (h : p.arrive = some q) : q.middle = p.middle := by
  cases p <;> cases h <;> rfl

theorem OneCaller.step (h : OneCaller c) {l : CoordLabel n Unit} (hl : NotFinalized c l) (hn : c.next l = some c') :
    OneCaller c' := by
  cases l with
  | update d =>
    simp only [Coord.next] at hn
    split_ifs at hn with hout h0
    · cases hn
      exact h.caller (by rw [hout]; rfl) _ _
    · cases hn
      exact h
  | isUptodate => cases hn; exact ⟨h.running, h.phase⟩
  | finalize d => exact absurd rfl (hl d)
  | arriveCaller d =>
    obtain ⟨p, hp, rfl⟩ := Option.map_eq_some_iff.mp hn
    exact (h.caller (CallerPhase.arrive_phase hp) _ _).barrier
  | ret d =>
    simp only [Coord.next] at hn
    split_ifs at hn with hafter
    cases hn
    exact h.caller (by rw [hafter]; rfl) _ _
  | arriveCore i =>
    obtain ⟨p, hp, rfl⟩ := Option.map_eq_some_iff.mp hn
    exact (h.core (CorePhase.arrive_phase hp (h.phase i).1)).barrier
  | check i =>
    simp only [Coord.next] at hn
    split_ifs at hn with hi hstop
    · exact absurd (h.running.symm.trans hstop) (by decide)
    · cases hn
      exact h.core ⟨rfl, by rw [hi]; rfl⟩
  | decrement i =>
    simp only [Coord.next] at hn
    split_ifs at hn with hi
    cases hn
    have hc := h.core (i := i) (p := .restarting) ⟨rfl, by rw [hi]; rfl⟩
    exact ⟨hc.running, hc.phase⟩
  | loop i =>
    simp only [Coord.next] at hn
    split_ifs at hn with hi
    cases hn
    exact h.core ⟨rfl, by rw [hi]; rfl⟩

/-- **With one caller, all core threads leave the second barrier with it.** -/
theorem OneCaller.opens_second (h : OneCaller c) {l : CoordLabel n Unit} (hn : c.next l = some c')
    (ho : opensSecond c c' = true) (i : Fin n) : c'.core i = .working := by
  obtain ⟨hne, heq⟩ : c.caller () ≠ .after ∧ c'.caller () = .after := by
    simpa [opensSecond] using ho
  have hbarrier : ∀ {d : Coord n Unit}, OneCaller d → d.caller () ≠ .after → d.barrier.caller () = .after →
      d.barrier.core i = .working := by
    intro d hd hdne hdeq
    rcases barrier_cases d with hb | ⟨hb, hcore, hcaller⟩
    · rw [hb] at hdeq
      exact absurd hdeq hdne
    · rw [hb] at hdeq ⊢
      exact (release_phase (hcore i) hcaller (hd.phase i).1 (hd.phase i).2).2.2 hdeq
  cases l with
  | arriveCaller d =>
    obtain ⟨p, hp, rfl⟩ := Option.map_eq_some_iff.mp hn
    refine hbarrier (h.caller (CallerPhase.arrive_phase hp) _ _) ?_ heq
    show Function.update c.caller () p () ≠ .after
    rw [Function.update_self]
    rintro rfl
    cases hc : c.caller () <;> rw [hc] at hp <;> cases hp
  | arriveCore j =>
    obtain ⟨p, hp, rfl⟩ := Option.map_eq_some_iff.mp hn
    exact hbarrier (h.core (CorePhase.arrive_phase hp (h.phase j).1)) hne heq
  | update d | finalize d | ret d =>
    simp only [Coord.next] at hn
    split_ifs at hn <;> cases hn <;> simp_all
  | isUptodate => cases hn; exact absurd heq hne
  | check j | decrement j | loop j =>
    simp only [Coord.next] at hn
    split_ifs at hn <;> cases hn <;> exact absurd heq hne

end OneCaller

/-! ## An update -/

/-- What a call of `hmonitor_output` printed, and the log of the round when it was made. -/
structure Printed (V M : Type) where
  mon : M
  line : Option (Obj × Option V × List V)
  log : List (M × Event)

structure UpdateState (n : Nat) (V M : Type) where
  coord : Coord n Unit
  world : World V M
  /-- The argument of `hmon_update` and the index of its output loop. -/
  output : Bool
  index : Nat
  printed : List (Printed V M)

inductive UpdateLabel (n : Nat) (V : Type)
  | hmonUpdate (output : Bool)
  | hmonIsUptodate
  | arriveCaller
  /-- One turn of the output loop. -/
  | print
  | ret
  | arriveCore (i : Fin n)
  | check (i : Fin n)
  /-- One operation of the passes of a core thread. -/
  | pass (i : Fin n) (a : Answer V)
  | decrement (i : Fin n)
  | loop (i : Fin n)

namespace UpdateState
variable {n : Nat} {V M : Type}

/-- A thread has arrived at the barrier. When the second one opens the core threads begin their passes. -/
def arrived (s : UpdateState n V M) (c : Coord n Unit) : UpdateState n V M :=
  { s with coord := c, world := if opensSecond s.coord c then s.world.update else s.world }

variable [DecidableEq M] [Double V]

/-- Thread `i` is at its `__sync_fetch_and_sub`: only the start pass is left. -/
def collected (s : UpdateState n V M) (i : Fin n) : Bool :=
  decide (s.world.todo (.core i) = (s.world.lib.visits i).map .start)

def next (s : UpdateState n V M) : UpdateLabel n V → Option (UpdateState n V M)
  | .hmonUpdate output => (s.coord.next (.update ())).map fun c => { s with coord := c, output := output, index := 0 }
  | .hmonIsUptodate => (s.coord.next .isUptodate).map fun c => { s with coord := c }
  | .arriveCaller => (s.coord.next (.arriveCaller ())).map s.arrived
  | .print =>
    if s.coord.caller () = .after ∧ s.output = true then
      (s.world.lib.registered[s.index]?).map fun m =>
        { s with
          index := s.index + 1
          printed := s.printed ++ [⟨m, hmonitorOutput .main true (s.world.mon m), s.world.round⟩] }
    else none
  | .ret =>
    if s.output = true ∧ s.index < s.world.lib.registered.length then none
    else (s.coord.next (.ret ())).map fun c => { s with coord := c }
  | .arriveCore i => (s.coord.next (.arriveCore i)).map s.arrived
  | .check i => (s.coord.next (.check i)).map fun c => { s with coord := c }
  | .pass i a =>
    if s.coord.core i = .working ∧ s.collected i = false ∨ s.coord.core i = .restarting then
      (s.world.step a (.core i)).map fun w => { s with world := w }
    else none
  | .decrement i =>
    if s.collected i then (s.coord.next (.decrement i)).map fun c => { s with coord := c } else none
  | .loop i =>
    if s.world.todo (.core i) = [] then (s.coord.next (.loop i)).map fun c => { s with coord := c } else none

end UpdateState

def updateSys {n : Nat} {V M : Type} [DecidableEq M] [Double V] : Lts (UpdateState n V M) (UpdateLabel n V) :=
  ⟨UpdateState.next⟩

section Update
variable {n : Nat} {V M : Type} [DecidableEq M] [Double V]

/-- The library between two rounds: any reachable registry and monitors, one thread for each core. -/
structure UpdateState.Ready (s : UpdateState n V M) : Prop where
  reach : hmonSys.Reach Fresh Lts.always s.world
  idle : s.world.Idle
  cores : n = s.world.lib.ncores
  coord : s.coord = Coord.init
  printed : s.printed = []

/-- Nothing is printed that a thread has still to reduce, a round starts with every monitor covered, and
`eventset_read` succeeds. -/
def UpdateState.printsCollected (s : UpdateState n V M) : UpdateLabel n V → Bool
  | .print => (s.world.lib.registered[s.index]?).all fun m =>
    s.world.lib.threads.all fun t => decide (.reduce m ∉ s.world.todo t)
  | .arriveCaller => (s.coord.next (.arriveCaller ())).all fun c =>
    !opensSecond s.coord c || s.world.lib.registered.all (covered s.world)
  | .arriveCore i => (s.coord.next (.arriveCore i)).all fun c =>
    !opensSecond s.coord c || s.world.lib.registered.all (covered s.world)
  | .pass i a => readOk a (s.world.todo (.core i))
  | _ => true

abbrev PrintsCollected (s : UpdateState n V M) (l : UpdateLabel n V) : Prop := s.printsCollected l = true

/-! ## What a step can do -/

/-- A step moves the barrier only, opens the second barrier, performs an operation of a core thread, or prints. -/
inductive UpdateStep (s s' : UpdateState n V M) (l : UpdateLabel n V) : Prop
  | quiet : s'.world = s.world → s'.printed = s.printed →
      (s'.coord.caller () = .after → s.coord.caller () = .after) → UpdateStep s s' l
  | opens : (PrintsCollected s l → s.world.lib.registered.all (covered s.world) = true) →
      s'.world = s.world.update → s'.printed = s.printed → UpdateStep s s' l
  | pass (i : Fin n) (a : Answer V) : (PrintsCollected s l → readOk a (s.world.todo (.core i)) = true) →
      s.world.step a (.core i) = some s'.world → s'.coord = s.coord → s'.printed = s.printed → UpdateStep s s' l
  | print (m : M) : (PrintsCollected s l → ∀ t ∈ s.world.lib.threads, .reduce m ∉ s.world.todo t) →
      s.coord.caller () = .after → s'.world = s.world → s'.coord = s.coord →
      s'.printed = s.printed ++ [⟨m, hmonitorOutput .main true (s.world.mon m), s.world.round⟩] → UpdateStep s s' l

variable {s s' : UpdateState n V M} {l : UpdateLabel n V}

/-- An arrival at the barrier. -/
theorem UpdateStep.arrived {c : Coord n Unit}
    (hok : PrintsCollected s l → (!opensSecond s.coord c || s.world.lib.registered.all (covered s.world)) = true) :
    UpdateStep s (s.arrived c) l := by
  cases ho : opensSecond s.coord c with
  | true =>
    refine .opens (fun hl => ?_) ?_ rfl
    · have hc := hok hl
      rw [ho] at hc
      exact hc
    · show (if opensSecond s.coord c then s.world.update else s.world) = _
      rw [ho, if_pos rfl]
  | false =>
    refine .quiet ?_ rfl fun hafter => ?_
    · show (if opensSecond s.coord c then s.world.update else s.world) = _
      rw [ho, if_neg Bool.false_ne_true]
    · by_contra hne
      have htrue : opensSecond s.coord c = true := by
        have ha : c.caller () = .after := hafter
        rw [opensSecond, decide_eq_true hne, decide_eq_true ha]
        rfl
      exact absurd (ho.symm.trans htrue) Bool.false_ne_true

theorem UpdateState.next_cases (hn : s.next l = some s') : UpdateStep s s' l := by
  cases l with
  | hmonUpdate output =>
    obtain ⟨c, hc, rfl⟩ := Option.map_eq_some_iff.mp hn
    refine .quiet rfl rfl fun hafter => ?_
    simp only [Coord.next] at hc
    split_ifs at hc <;> cases hc <;> simp_all
  | hmonIsUptodate =>
    simp only [UpdateState.next] at hn
    obtain ⟨c, hc, rfl⟩ := Option.map_eq_some_iff.mp hn
    cases hc
    exact .quiet rfl rfl id
  | arriveCaller | arriveCore =>
    obtain ⟨c, hc, rfl⟩ := Option.map_eq_some_iff.mp hn
    refine .arrived fun hl => ?_
    simpa only [PrintsCollected, UpdateState.printsCollected, hc, Option.all_some] using hl
  | print =>
    simp only [UpdateState.next] at hn
    split_ifs at hn with hprint
    obtain ⟨m, hm, rfl⟩ := Option.map_eq_some_iff.mp hn
    refine .print m (fun hl t ht => ?_) hprint.1 rfl rfl rfl
    simp only [PrintsCollected, UpdateState.printsCollected, hm, Option.all_some, List.all_eq_true] at hl
    exact of_decide_eq_true (hl t ht)
  | ret =>
    simp only [UpdateState.next] at hn
    split_ifs at hn
    obtain ⟨c, hc, rfl⟩ := Option.map_eq_some_iff.mp hn
    refine .quiet rfl rfl fun hafter => ?_
    simp only [Coord.next] at hc
    split_ifs at hc
    cases hc
    simp at hafter
  | pass i a =>
    simp only [UpdateState.next] at hn
    split_ifs at hn
    obtain ⟨w, hw, rfl⟩ := Option.map_eq_some_iff.mp hn
    exact .pass i a id hw rfl rfl
  | check i =>
    obtain ⟨c, hc, rfl⟩ := Option.map_eq_some_iff.mp hn
    refine .quiet rfl rfl fun hafter => ?_
    simp only [Coord.next] at hc
    split_ifs at hc <;> cases hc <;> exact hafter
  | decrement i | loop i =>
    simp only [UpdateState.next] at hn
    split_ifs at hn
    obtain ⟨c, hc, rfl⟩ := Option.map_eq_some_iff.mp hn
    refine .quiet rfl rfl fun hafter => ?_
    simp only [Coord.next] at hc
    split_ifs at hc
    cases hc
    exact hafter

/-- A step leaves the barrier alone or is a step of it. -/
theorem UpdateState.coord_cases (hn : s.next l = some s') :
    s'.coord = s.coord ∨ ∃ k, NotFinalized s.coord k ∧ s.coord.next k = some s'.coord := by
  cases l with
  | hmonUpdate | hmonIsUptodate | arriveCaller | arriveCore | check =>
    simp only [UpdateState.next] at hn
    obtain ⟨c, hc, rfl⟩ := Option.map_eq_some_iff.mp hn
    refine Or.inr ⟨_, ?_, hc⟩
    exact fun _ => nofun
  | print | pass =>
    simp only [UpdateState.next] at hn
    split_ifs at hn
    obtain ⟨_, -, rfl⟩ := Option.map_eq_some_iff.mp hn
    exact Or.inl rfl
  | ret | decrement | loop =>
    simp only [UpdateState.next] at hn
    split_ifs at hn
    obtain ⟨c, hc, rfl⟩ := Option.map_eq_some_iff.mp hn
    refine Or.inr ⟨_, ?_, hc⟩
    exact fun _ => nofun

/-- The barrier of the whole system runs as the barrier alone does. -/
theorem updateSys_coord {ok : UpdateState n V M → UpdateLabel n V → Prop}
    (h : updateSys.Reach UpdateState.Ready ok s) : coordSys.Reach Initial NotFinalized s.coord := by
  refine h.map (J := fun _ => True) UpdateState.coord (fun _ _ => trivial) (fun s hs => .init hs.coord) ?_
  intro s l s' _ _ hn hr
  rcases UpdateState.coord_cases hn with hc | ⟨k, hk, hc⟩
  · exact hc ▸ hr
  · exact .step k hr hk hc

/-- **When the second barrier opens a round begins, and every core thread is before its passes.** -/
theorem passes_start {ok : UpdateState n V M → UpdateLabel n V → Prop} (h : updateSys.Reach UpdateState.Ready ok s)
    (hn : s.next l = some s') (ho : opensSecond s.coord s'.coord = true) :
    s'.world = s.world.update ∧ ∀ i, s'.coord.core i = .working := by
  have hone : OneCaller s.coord := (updateSys_coord h).invariant
    (fun _ hc => by obtain rfl := hc; exact oneCaller_init) fun _ _ _ hi hok hl => hi.step hok hl
  obtain ⟨hne, hafter⟩ : s.coord.caller () ≠ .after ∧ s'.coord.caller () = .after := by
    simpa [opensSecond] using ho
  constructor
  · cases UpdateState.next_cases hn with
    | quiet _ _ hback => exact absurd (hback hafter) hne
    | opens _ hw => exact hw
    | pass _ _ _ _ hc | print _ _ _ _ hc => exact absurd (hc ▸ hafter) hne
  · rcases UpdateState.coord_cases hn with hc | ⟨k, -, hc⟩
    · exact absurd (hc ▸ hafter) hne
    · exact hone.opens_second hc ho

/-! ## What is printed -/

/-- After the second barrier the round makes progress with every visited monitor, and all that was printed had been
read and reduced. -/
structure PrintInv (s : UpdateState n V M) : Prop where
  proper : s.world.Proper
  main : s.world.todo .main = []
  collecting : s.coord.caller () = .after → ∀ i, ∀ m ∈ s.world.lib.visits i, Collecting m s.world
  printed : ∀ p ∈ s.printed, ∀ i, p.mon ∈ s.world.lib.visits i → Collected p.mon p.log

theorem printInv_ready (h : s.Ready) : PrintInv s := by
  refine ⟨hmonSys_proper h.reach, h.idle .main, fun hafter => ?_, fun p hp => ?_⟩
  · rw [h.coord] at hafter
    cases hafter
  · rw [h.printed] at hp
    cases hp

theorem PrintInv.step (h : PrintInv s) (hok : PrintsCollected s l) (hn : s.next l = some s') : PrintInv s' := by
  cases UpdateState.next_cases hn with
  | quiet hw hp hafter =>
    refine ⟨hw ▸ h.proper, hw ▸ h.main, fun ha => ?_, ?_⟩
    · rw [hw]
      exact h.collecting (hafter ha)
    · rw [hp, hw]
      exact h.printed
  | opens hc hw hp =>
    have hcov := List.all_eq_true.mp (hc hok)
    refine ⟨hw ▸ h.proper.update, hw ▸ h.main, fun _ i m hm => ?_, ?_⟩
    · rw [hw] at hm ⊢
      exact collecting_update h.main hm (hcov m (Registry.visits_registered h.proper.sound hm))
    · rw [hp, hw]
      exact h.printed
  | pass i a hr hw hc hp =>
    have hmain : Thread.main ≠ .core i := by simp
    refine ⟨h.proper.step hw, (World.step_todo_ne hw hmain).trans h.main, fun ha j m hm => ?_, ?_⟩
    · rw [hc] at ha
      rw [World.step_visits hw] at hm
      exact (h.collecting ha j m hm).step (l := (.core i, a)) (hr hok) hw
    · rw [hp, World.step_visits hw]
      exact h.printed
  | print m hno hafter hw hc hp =>
    refine ⟨hw ▸ h.proper, hw ▸ h.main, fun ha => ?_, fun p hmem i hv => ?_⟩
    · rw [hw]
      exact h.collecting (hc ▸ ha)
    · rw [hw] at hv
      rw [hp, List.mem_append, List.mem_singleton] at hmem
      rcases hmem with hmem | rfl
      · exact h.printed p hmem i hv
      · refine (h.collecting hafter i m hv).collected fun t => ?_
        by_cases ht : t ∈ s.world.lib.threads
        · exact hno hok t ht
        · rw [h.proper.outside t ht]
          exact List.not_mem_nil

/-- **What `hmon_update` prints was read and reduced in its round, as long as no thread has still to reduce it when
it is printed, every monitor runs or belongs to a visiting thread when a round starts, and reads succeed.** -/
theorem print_collected (h : updateSys.Reach UpdateState.Ready PrintsCollected s) :
    ∀ p ∈ s.printed, ∀ i, p.mon ∈ s.world.lib.visits i → Collected p.mon p.log :=
  (h.invariant (fun _ => printInv_ready) fun _ _ _ hi hok hn => hi.step hok hn).printed

end Update

/-! ## A line printed too early -/

namespace Early
open Demo

/-- Monitor 0 on the machine, which prints to a file, started. -/
def setup : List (Label ℚ ℕ) :=
  [.create .main 0 0 { leaf [1] Topo.machine with output := some 0 }, .register 0 0, .start .main fun _ => ok]

def world : World ℚ ℕ := (hmonSys.exec Demo.init setup).get (by decide +kernel)

theorem world_exec : hmonSys.exec Demo.init setup = some world := (Option.some_get _).symm

def start : UpdateState 2 ℚ ℕ := ⟨Coord.init, world, false, 0, []⟩

theorem start_ready : start.Ready := by
  have hr : hmonSys.Reach Fresh Lts.always world := .of_exec (.init init_fresh) world_exec
  exact ⟨hr, (hmonSys_proper hr).idle_iff.mp (by decide +kernel), by decide +kernel, rfl, rfl⟩

/-- `hmon_update(1)` up to the opening of the second barrier. -/
def toPasses : List (UpdateLabel 2 ℚ) :=
  [.hmonUpdate true, .arriveCaller, .arriveCore 0, .arriveCore 1, .check 0, .check 1, .arriveCore 0, .arriveCore 1,
    .arriveCaller]

/-- The output loop waits until both threads have reduced the monitor. -/
def late : List (UpdateLabel 2 ℚ) :=
  toPasses ++ [.pass 0 ok, .pass 1 ok, .pass 0 ok, .pass 1 ok, .pass 0 ok, .pass 1 ok, .decrement 0, .print]

def lateEnd : UpdateState 2 ℚ ℕ := (updateSys.exec start late).get (by decide +kernel)

theorem late_exec : updateSys.exec start late = some lateEnd := (Option.some_get _).symm

/-- It does not wait. -/
def early : List (UpdateLabel 2 ℚ) := toPasses ++ [.print]

def earlyEnd : UpdateState 2 ℚ ℕ := (updateSys.exec start early).get (by decide +kernel)

theorem early_exec : updateSys.exec start early = some earlyEnd := (Option.some_get _).symm

end Early

open Early in
theorem print_collected_late : lateEnd.printed.length = 1 ∧
    ∀ p ∈ lateEnd.printed, ∀ i, p.mon ∈ lateEnd.world.lib.visits i → Collected p.mon p.log :=
  ⟨by decide +kernel, print_collected (.of_along (.init start_ready)
    (show updateSys.Along PrintsCollected _ late by decide +kernel) late_exec)⟩

open Early in
/-- The first line of an update is printed before any thread has read the monitor. -/
theorem print_too_early : ∃ s : UpdateState 2 ℚ ℕ, updateSys.Reach UpdateState.Ready Lts.always s ∧
    ∃ p ∈ s.printed, p.line.isSome = true ∧ p.mon ∈ s.world.lib.visits 0 ∧ ¬ Collected p.mon p.log := by
  refine ⟨earlyEnd, .of_exec (.init start_ready) early_exec, ?_⟩
  have hp : ∃ p ∈ earlyEnd.printed, p.line.isSome = true ∧ p.mon ∈ earlyEnd.world.lib.visits 0 ∧
      ¬ Collected p.mon p.log := by decide +kernel
  exact hp

end Hmon
