import Hmon.Lib.Alternate
import Hmon.Thread.System

/-!
# What the stopped flag says about the eventset

The calls of `eventset_start` and `eventset_stop` on a monitor are recorded in the history of the library.
`hmonitor_reset` sets the flag without calling either.

* `flagCalls` : the calls of `eventset_start` and `eventset_stop` on a monitor;
* `Truthful` : these calls alternate, beginning with a start, and the flag tells the last one;
* `FlagStep` : what a call does to the flag and to this record; `Op.effect_flag` : every operation but the reset
  of a running monitor does that;
* `Honest` : the plugins succeed and no running monitor is reset;
* `flag_truthful` : **in every honest run the flag of every monitor tells the truth**.
-/

namespace Hmon
open Lib

variable {V M : Type}

/-- The plugin's `eventset_start` or `eventset_stop` is called. -/
def Event.isFlag : Event → Bool
  | .start | .stop => true
  | _ => false

section Calls
variable [DecidableEq M]

/-- The calls of `eventset_start` and `eventset_stop` on `m`, in order. -/
def flagCalls (m : M) (log : List (M × Event)) : List Event :=
  (log.filter fun x => x.1 = m ∧ x.2.isFlag).map Prod.snd

/-- The calls alternate, and the monitor runs after an odd number of them. -/
structure Truthful (m : M) (w : World V M) : Prop where
  alternates : Alternates .start .stop (flagCalls m w.history)
  running : (w.mon m).stopped = false ↔ (flagCalls m w.history).length % 2 = 1

theorem flagCalls_append (m : M) (log log' : List (M × Event)) :
    flagCalls m (log ++ log') = flagCalls m log ++ flagCalls m log' := by
  simp [flagCalls]

theorem flagCalls_map_self (m : M) (events : List Event) :
    flagCalls m (events.map fun e => (m, e)) = events.filter Event.isFlag := by
  unfold flagCalls
  rw [List.filter_map, List.map_map]
  have hpred : (fun x : M × Event => decide (x.1 = m ∧ x.2.isFlag)) ∘ (fun e => (m, e)) = Event.isFlag := by
    funext e
    simp
  rw [hpred]
  exact List.map_id _

theorem flagCalls_map_ne {m x : M} (hx : x ≠ m) (events : List Event) :
    flagCalls m (events.map fun e => (x, e)) = [] := by
  simp [flagCalls, hx]

end Calls

/-! ## One call -/

/-- The flag is as it was and neither function is called, or a stopped eventset is started, or a running one
stopped. -/
inductive FlagStep (h h' : Hmonitor Thread V M) (events : List Event) : Prop
  | same : events.filter Event.isFlag = [] → h'.stopped = h.stopped → FlagStep h h' events
  | start : h.stopped = true → h'.stopped = false → events.filter Event.isFlag = [.start] → FlagStep h h' events
  | stop : h.stopped = false → h'.stopped = true → events.filter Event.isFlag = [.stop] → FlagStep h h' events

theorem hmonitorStart_flag {self : Thread} {a : Answer V} (ha : a.ok = true) (h : Hmonitor Thread V M) :
    FlagStep h (hmonitorStart self a h).mon (hmonitorStart self a h).events := by
  by_cases hs : h.stopped = true
  · by_cases ho : h.owner = self
    · rw [hmonitorStart_of_owner hs ho ha]
      exact .start hs rfl rfl
    · rw [hmonitorStart_of_other a hs ho]
      exact .same rfl rfl
  · rw [Bool.not_eq_true] at hs
    rw [hmonitorStart_of_running self a hs]
    exact .same rfl rfl

theorem hmonitorStop_flag {self : Thread} {a : Answer V} (ha : a.ok = true) (h : Hmonitor Thread V M) :
    FlagStep h (hmonitorStop self a h).mon (hmonitorStop self a h).events := by
  by_cases hs : h.stopped = true
  · rw [hmonitorStop_of_stopped self a hs]
    exact .same rfl rfl
  · rw [Bool.not_eq_true] at hs
    rw [hmonitorStop_of_running self a hs]
    exact .stop hs ha rfl

theorem tasksetStop_flag (running : Cpuset) (h : Hmonitor Thread V M) :
    FlagStep h (World.tasksetStop running h).mon (World.tasksetStop running h).events := by
  unfold World.tasksetStop
  split_ifs with hc
  · exact .stop hc.2 rfl rfl
  · exact .same rfl rfl

section Effect
variable [Double V]

theorem Op.effect_flag {self : Thread} {a : Answer V} {mon : M → Hmonitor Thread V M} {op : Op M} {e : Effect V M}
    (ha : a.ok = true) (hz : ∀ m, op = .reset m → (mon m).stopped = true) (h : op.effect self a mon = some e) :
    FlagStep (mon op.target) e.mon e.events := by
  cases op with
  | start m => cases h; exact hmonitorStart_flag ha (mon m)
  | stop m => cases h; exact hmonitorStop_flag ha (mon m)
  | read m =>
    rcases Op.read_cases h with ⟨-, rfl⟩ | ⟨-, hc, -, -, ⟨-, hev, -⟩ | ⟨ops, hev, -⟩⟩
    · exact .same rfl rfl
    · refine .same ?_ hc.stopped
      rw [hev]
      cases a.ok <;> rfl
    · exact .same (by rw [hev]; rfl) hc.stopped
  | reduce m =>
    cases h
    refine .same ?_ (hmonitorReduce_control self (mon m)).stopped
    simp only [Outcome.effect, hmonitorReduce]
    split_ifs <;> rfl
  | reset m => cases h; exact .same rfl (hz m rfl).symm
  | lockChild c => rcases Op.lockChild_cases h with ⟨-, rfl⟩ | ⟨-, -, rfl⟩ | ⟨-, -, rfl⟩ <;> exact .same rfl rfl
  | blocked c =>
    simp only [effect] at h
    split_ifs at h
    cases h
    exact .same rfl rfl
  | unlock c => cases h; exact .same rfl rfl
  | release c =>
    cases h
    refine .same rfl ?_
    simp only [hmonitorRelease, target, Hmon.unlock]
    split_ifs <;> rfl
  | copySamples m base c | copyEvents m base c | addEvents m base c => cases h; exact .same rfl rfl
  | readDone m => cases h; exact .same rfl rfl

end Effect

/-! ## The history -/

section Runs
variable [DecidableEq M] {m : M} {w w' : World V M}

theorem history_put (w : World V M) (x : M) (h : Hmonitor Thread V M) (events : List Event) :
    (w.put x h events).history = w.history ++ events.map fun e => (x, e) := by
  simp [World.history, World.put]

/-- A call keeps the flag of `m` truthful. -/
theorem Truthful.put (ht : Truthful m w) {x : M} {h : Hmonitor Thread V M} {events : List Event}
    (hf : FlagStep (w.mon x) h events) : Truthful m (w.put x h events) := by
  by_cases hx : x = m
  · subst hx
    have hmon : (w.put x h events).mon x = h := Function.update_self ..
    have hcalls : flagCalls x (w.put x h events).history = flagCalls x w.history ++ events.filter Event.isFlag := by
      rw [history_put, flagCalls_append, flagCalls_map_self]
    cases hf with
    | same hev hs =>
      rw [hev, List.append_nil] at hcalls
      exact ⟨hcalls ▸ ht.alternates, by rw [hmon, hcalls, hs]; exact ht.running⟩
    | start h0 h1 hev =>
      rw [hev] at hcalls
      have hlen : (flagCalls x w.history).length % 2 = 0 := by
        by_contra hne
        have := ht.running.mpr (by omega)
        rw [h0] at this
        cases this
      refine ⟨?_, ?_⟩
      · rw [hcalls, alternates_concat_iff, if_pos hlen]
        exact ⟨ht.alternates, rfl⟩
      · rw [hmon, hcalls, List.length_append, List.length_singleton]
        exact iff_of_true h1 (by omega)
    | stop h0 h1 hev =>
      rw [hev] at hcalls
      have hlen : (flagCalls x w.history).length % 2 = 1 := ht.running.mp h0
      refine ⟨?_, ?_⟩
      · rw [hcalls, alternates_concat_iff, if_neg (by omega)]
        exact ⟨ht.alternates, rfl⟩
      · rw [hmon, hcalls, List.length_append, List.length_singleton, h1]
        exact iff_of_false (by decide) (by omega)
  · have hmon : (w.put x h events).mon m = w.mon m := Function.update_of_ne (Ne.symm hx) ..
    have hcalls : flagCalls m (w.put x h events).history = flagCalls m w.history := by
      rw [history_put, flagCalls_append, flagCalls_map_ne hx, List.append_nil]
    exact ⟨hcalls ▸ ht.alternates, by rw [hmon, hcalls]; exact ht.running⟩

/-- The flag of an allocated monitor tells the truth, and nothing was called on an unallocated one. -/
structure FlagInv (m : M) (w : World V M) : Prop where
  truthful : m ∈ w.lib.created → Truthful m w
  unused : m ∉ w.lib.created → flagCalls m w.history = []

theorem FlagInv.put (hi : FlagInv m w) {x : M} (hx : x ∈ w.lib.created) {h : Hmonitor Thread V M}
    {events : List Event} (hf : FlagStep (w.mon x) h events) : FlagInv m (w.put x h events) := by
  refine ⟨fun hm => (hi.truthful hm).put hf, fun hm => ?_⟩
  have hxm : x ≠ m := fun he => hm (he ▸ hx)
  rw [history_put, flagCalls_append, flagCalls_map_ne hxm, List.append_nil]
  exact hi.unused hm

theorem FlagInv.hmonitorsDo {call : M → Hmonitor Thread V M → Outcome Thread V M} (ms : List M) {w : World V M}
    (hc : ∀ x ∈ ms, ∀ h, FlagStep h (call x h).mon (call x h).events) (hms : ∀ x ∈ ms, x ∈ w.lib.created)
    (hi : FlagInv m w) : FlagInv m (World.hmonitorsDo call ms w) := by
  induction ms generalizing w with
  | nil => exact hi
  | cons x ms ih =>
    exact ih (fun y hy => hc y (List.mem_cons_of_mem x hy)) (fun y hy => hms y (List.mem_cons_of_mem x hy))
      (hi.put (hms x List.mem_cons_self) (hc x List.mem_cons_self (w.mon x)))

/-- The history and the monitors of the old world. -/
theorem FlagInv.of_same (hi : FlagInv m w) (hmon : w'.lib.created = w.lib.created)
    (hs : (w'.mon m).stopped = (w.mon m).stopped) (hh : w'.history = w.history) : FlagInv m w' := by
  refine ⟨fun hm => ?_, fun hm => ?_⟩
  · have ht := hi.truthful (hmon ▸ hm)
    exact ⟨hh ▸ ht.alternates, by rw [hs, hh]; exact ht.running⟩
  · rw [hh]
    exact hi.unused (hmon ▸ hm)

/-! ## Honest runs -/

/-- The next operation does not reset a running monitor. -/
def resetsStopped (w : World V M) : List (Op M) → Bool
  | .reset x :: _ => (w.mon x).stopped
  | _ => true

def honest (w : World V M) : Label V M → Bool
  | .start _ a | .stop _ a => w.lib.registered.all fun x => (a x).ok
  | .step t a => a.ok && resetsStopped w (w.todo t)
  | _ => true

/-- The plugins succeed, and a monitor is reset, by a call or by the reset of a parent, only while it is
stopped. -/
abbrev Honest (w : World V M) (l : Label V M) : Prop := honest w l = true

variable [Double V]

theorem FlagInv.create (hi : FlagInv m w) {t : Thread} {now : Int} {x : M} {r : Request V}
    {h : Hmonitor Thread V M} {ops : List (Op M)} (hx : x ∉ w.lib.created)
    (hh : w.lib.newHmonitor t now r = some h) : FlagInv m { w with
      lib := { w.lib.setMon x h with created := x :: w.lib.created }
      todo := Function.update w.todo t ops } := by
  by_cases hm : m = x
  · subst hm
    obtain ⟨⟨ev, n⟩, -, hh⟩ := Option.bind_eq_some_iff.mp hh
    have hcalls : flagCalls m w.history = [] := hi.unused hx
    refine ⟨fun _ => ⟨?_, ?_⟩, fun hnot => absurd List.mem_cons_self hnot⟩
    · show Alternates .start .stop (flagCalls m w.history)
      rw [hcalls]
      exact alternates_nil
    · rw [show (World.mon _ m) = h from Function.update_self .., (newHmonitor_fresh hh).1]
      show _ ↔ (flagCalls m w.history).length % 2 = 1
      rw [hcalls]
      decide
  · have hmon : Function.update w.lib.mon x h m = w.lib.mon m := Function.update_of_ne hm ..
    refine ⟨fun hmem => ?_, fun hnot => hi.unused fun hmem => hnot (List.mem_cons_of_mem x hmem)⟩
    have ht := hi.truthful ((List.mem_cons.mp hmem).resolve_left hm)
    refine ⟨ht.alternates, ?_⟩
    show (Function.update w.lib.mon x h m).stopped = false ↔ _
    rw [hmon]
    exact ht.running

omit [Double V] in
theorem FlagInv.register (hi : FlagInv m w) {x : M} {L : Registry V M} (hr : Registers w.lib x L) :
    FlagInv m { w with lib := L } := by
  obtain ⟨display, owner, hmon⟩ := hr.mon
  refine hi.of_same hr.created ?_ rfl
  show (L.mon m).stopped = (w.lib.mon m).stopped
  rw [hmon]
  by_cases hmx : m = x
  · rw [hmx, Function.update_self]
  · rw [Function.update_of_ne hmx]

theorem FlagInv.step (hl : w.Live) (hi : FlagInv m w) {t : Thread} {a : Answer V} (hok : Honest w (.step t a))
    (hn : w.step a t = some w') : FlagInv m w' := by
  obtain ⟨op, ops, e, htodo, he, rfl⟩ := World.step_cases hn
  have ht : op.target ∈ w.lib.created := hl.targets t op (by rw [htodo]; exact List.mem_cons_self)
  simp only [Honest, honest, Bool.and_eq_true, htodo] at hok
  have hf : FlagStep (w.mon op.target) e.mon e.events :=
    Op.effect_flag hok.1 (by rintro x rfl; exact hok.2) he
  exact (hi.put ht hf).of_same rfl rfl rfl

theorem FlagInv.next {l : Label V M} (hp : w.Proper) (hl : w.Live) (hi : FlagInv m w) (hok : Honest w l)
    (hn : hmonNext w l = some w') : FlagInv m w' := by
  cases hmonNext_cases hp.sound hn with
  | refused => exact hi
  | create hx _ hh => exact hi.create hx hh
  | register _ hreg => exact hi.register hreg
  | restrict | call => exact hi.of_same rfl rfl rfl
  | start => exact hi.hmonitorsDo _ (fun x hx h => hmonitorStart_flag (List.all_eq_true.mp hok x hx) h) hp.created
  | stop => exact hi.hmonitorsDo _ (fun x hx h => hmonitorStop_flag (List.all_eq_true.mp hok x hx) h) hp.created
  | taskset => exact hi.hmonitorsDo _ (fun _ _ h => tasksetStop_flag _ h) hp.created
  | update => exact hi.of_same rfl rfl (by simp [World.history, World.update])
  | step hs => exact hi.step hl hok hs

/-- **In every honest run, the calls of `eventset_start` and `eventset_stop` on a monitor alternate, beginning with
a start, and the monitor's flag says that it runs exactly when the last of them was a start.** -/
theorem flag_truthful (h : hmonSys.Reach Fresh Honest w) (hm : m ∈ w.lib.created) :
    Alternates .start .stop (flagCalls m w.history) ∧
      ((w.mon m).stopped = false ↔ (flagCalls m w.history).getLast? = some .start) := by
  have hi : FlagInv m w := Lts.Reach.invariant_of (I := FlagInv m) (J := fun w => w.Proper ∧ w.Live)
    (fun _ hr => ⟨hmonSys_proper hr, hmonSys_live hr⟩)
    (by rintro _ ⟨topo, mon, rfl⟩; exact ⟨nofun, fun _ => rfl⟩)
    (fun _ _ _ hj hi hok hn => hi.next hj.1 hj.2 hok hn) h
  have ht := hi.truthful hm
  exact ⟨ht.alternates, ht.running.trans (ht.alternates.getLast?_eq_iff (by decide)).symm⟩

end Runs

/-! ## A reset that stops nothing -/

namespace Reset
open Demo

/-- Monitor 0 on the machine, started and stopped by `hmon_start` and `hmon_stop`. -/
def orderly : List (Label ℚ ℕ) :=
  [.create .main 0 0 (leaf [1] Topo.machine), .register 0 0, .start .main fun _ => ok, .stop .main fun _ => ok]

def orderlyEnd : World ℚ ℕ := (hmonSys.exec init orderly).get (by decide +kernel)

theorem orderly_exec : hmonSys.exec init orderly = some orderlyEnd := (Option.some_get _).symm

/-- Monitor 0 is started; the creation of a hierarchical monitor over it resets it; `hmonitor_start` starts it
again. -/
def parent : List (Label ℚ ℕ) :=
  [.create .main 0 0 (leaf [1] Topo.machine), .register 0 0, .start .main fun _ => ok,
    .create .main 0 1 (hierarchical [2] Topo.machine [[1]]), .step .main ok, .call .main (.start 0), .step .main ok]

def parentEnd : World ℚ ℕ := (hmonSys.exec init parent).get (by decide +kernel)

theorem parent_exec : hmonSys.exec init parent = some parentEnd := (Option.some_get _).symm

end Reset

open Reset in
theorem flag_truthful_orderly : Alternates .start .stop (flagCalls 0 orderlyEnd.history) ∧
    ((orderlyEnd.mon 0).stopped = false ↔ (flagCalls 0 orderlyEnd.history).getLast? = some .start) :=
  flag_truthful (.of_along (.init Demo.init_fresh) (show hmonSys.Along _ _ orderly by decide +kernel) orderly_exec)
    (by decide +kernel)

open Reset in
/-- The creation of a parent makes the plugin start a running eventset. -/
theorem reset_double_start : ∃ w : World ℚ ℕ, hmonSys.Reach Fresh Lts.always w ∧ ∃ m ∈ w.lib.created,
    flagCalls m w.history = [.start, .start] ∧ ¬ Alternates .start .stop (flagCalls m w.history) :=
  ⟨parentEnd, .of_exec (.init Demo.init_fresh) parent_exec, 0, by decide +kernel, by decide +kernel,
    by decide +kernel⟩

end Hmon
