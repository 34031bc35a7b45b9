import Hmon.Lib.Lts
import Mathlib.Tactic.ByContra
import Mathlib.Tactic.SplitIfs

/-!
# The timers and their signal handler (`sampling.c`)

* `SamplingState` : the variables of `sampling.c` and the timers of the process;
* `handler` : what the signal handler does when a timer expires;
* `hmonSamplingStart`, `hmonSamplingStop`, `hmonPeriodicDisplayStart`, `hmonPeriodicDisplayStop`;
* `sampling` : the runs in which start and stop of each kind alternate;
* `own_throughout_iff` : **every tick runs exactly its own action exactly when every new timer gets another id than
  the one in the other variable**.

A timer that lives may expire at any time, so the delays of `set_timer` play no role.
-/

namespace Hmon
open Lib

/-- The variable whose address the signal of a timer carries. -/
inductive TimerVar
  | update
  | display
  deriving DecidableEq

/-- A timer of the process: its id, and the variable that its signal points to. -/
structure Timer where
  id : Nat
  var : TimerVar
  deriving DecidableEq

/-- The variables of `sampling.c`, the timers created and not deleted, and the kinds that were started last. -/
structure SamplingState (F : Type) where
  handlerIsset : Bool
  updateTimer : Nat
  displayTimer : Nat
  displayFunction : Option F
  displayArg : Int
  live : List Timer
  samplingStarted : Bool
  displayStarted : Bool

/-- What the system calls of a start answer. `ret` is what `create_timer`, which ends without a `return`, happens to
return. -/
structure Sys where
  sigaction : Bool
  timerCreate : Option Nat
  ret : Int
  timerSettime : Bool

inductive Call (F : Type)
  | samplingStart (sys : Sys)
  | samplingStop
  | displayStart (displayMonitors : F) (arg : Int) (sys : Sys)
  | displayStop

/-- What the handler calls. -/
inductive Action (F : Type)
  | hmonUpdate (output : Int)
  | display (f : F) (arg : Int)
  | nullCall
  deriving DecidableEq

variable {F : Type}

namespace SamplingState

/-- The variables before the first call. -/
def init : SamplingState F := ⟨false, 0, 0, none, 0, [], false, false⟩

def value (s : SamplingState F) : TimerVar → Nat
  | .update => s.updateTimer
  | .display => s.displayTimer

def write (s : SamplingState F) (id : Nat) : TimerVar → SamplingState F
  | .update => { s with updateTimer := id }
  | .display => { s with displayTimer := id }

end SamplingState
open SamplingState

/-- The handler of `SIGRTMIN` for the signal of a timer. -/
def handler (s : SamplingState F) (timer : TimerVar) : List (Action F) :=
  (if s.value timer = s.updateTimer then [.hmonUpdate 1] else []) ++
  (if s.value timer = s.displayTimer then
    [match s.displayFunction with
      | some f => .display f s.displayArg
      | none => .nullCall]
  else [])

def setHandler (s : SamplingState F) (sys : Sys) : Int × SamplingState F :=
  if sys.sigaction then (0, { s with handlerIsset := true }) else (-1, s)

def createTimer (s : SamplingState F) (timerid : TimerVar) (sys : Sys) : Int × SamplingState F :=
  match sys.timerCreate with
  | none => (-1, s)
  | some id => (sys.ret, { s.write id timerid with live := ⟨id, timerid⟩ :: s.live })

def setTimer (sys : Sys) : Int := if sys.timerSettime then 0 else -1

/-- What the two start functions have in common. -/
def startTimer (s : SamplingState F) (timerid : TimerVar) (sys : Sys) : Int × SamplingState F :=
  let (r, s) := if s.handlerIsset then (0, s) else setHandler s sys
  if r = -1 then (-1, s)
  else
    let (r, s) := createTimer s timerid sys
    if r = -1 then (-1, s) else (setTimer sys, s)

def hmonSamplingStart (s : SamplingState F) (sys : Sys) : Int × SamplingState F := startTimer s .update sys

def hmonPeriodicDisplayStart (s : SamplingState F) (displayMonitors : F) (arg : Int) (sys : Sys) :
    Int × SamplingState F :=
  startTimer { s with displayFunction := some displayMonitors, displayArg := arg } .display sys

/-- `timer_delete`: it fails when no timer has the id. -/
def timerDelete (s : SamplingState F) (id : Nat) : Int × SamplingState F :=
  if ∃ t ∈ s.live, t.id = id then (0, { s with live := s.live.filter (·.id ≠ id) }) else (-1, s)

def hmonSamplingStop (s : SamplingState F) : Int × SamplingState F := timerDelete s s.updateTimer

def hmonPeriodicDisplayStop (s : SamplingState F) : Int × SamplingState F := timerDelete s s.displayTimer

/-- The id of a new timer is not the id of a timer that lives. -/
def Sys.Distinct (s : SamplingState F) (sys : Sys) : Prop := ∀ id, sys.timerCreate = some id → ∀ t ∈ s.live, t.id ≠ id

instance (s : SamplingState F) (sys : Sys) : Decidable (sys.Distinct s) :=
  match h : sys.timerCreate with
  | none => isTrue fun id hid => by rw [h] at hid; cases hid
  | some id =>
    decidable_of_iff (∀ t ∈ s.live, t.id ≠ id) ⟨fun ht id' hid => by
      rw [h, Option.some.injEq] at hid
      exact hid ▸ ht, fun ht => ht id h⟩

/-- Calls in which start and stop of each kind alternate, whatever the calls return. -/
def sampling : Lts (SamplingState F) (Call F) where
  next s
    | .samplingStart sys =>
      if ¬ s.samplingStarted ∧ sys.Distinct s then some { (hmonSamplingStart s sys).2 with samplingStarted := true }
      else none
    | .samplingStop => if s.samplingStarted then some { (hmonSamplingStop s).2 with samplingStarted := false } else none
    | .displayStart f arg sys =>
      if ¬ s.displayStarted ∧ sys.Distinct s then
        some { (hmonPeriodicDisplayStart s f arg sys).2 with displayStarted := true }
      else none
    | .displayStop =>
      if s.displayStarted then some { (hmonPeriodicDisplayStop s).2 with displayStarted := false } else none

/-- Whichever timer expires, the handler runs its own action. -/
structure OwnAction (s : SamplingState F) : Prop where
  update : ∀ t ∈ s.live, t.var = .update → handler s t.var = [.hmonUpdate 1]
  display : ∀ t ∈ s.live, t.var = .display →
    ∃ f, s.displayFunction = some f ∧ handler s t.var = [.display f s.displayArg]

/-- A start that creates a timer gets another id than the one in the other variable, which is 0 before the first
timer of that kind and stays when that timer is deleted. -/
def FreshId (s : SamplingState F) : Call F → Prop
  | .samplingStart sys =>
    s.handlerIsset ∨ sys.sigaction → sys.timerCreate ≠ some s.displayTimer
  | .displayStart _ _ sys =>
    s.handlerIsset ∨ sys.sigaction → sys.timerCreate ≠ some s.updateTimer
  | _ => True

instance (s : SamplingState F) (c : Call F) : Decidable (FreshId s c) := by
  cases c <;> unfold FreshId <;> infer_instance

/-! ## What the calls do -/

/-- The ids in the two variables differ while a timer lives, and a display timer that lives has its function. -/
structure Apart (s : SamplingState F) : Prop where
  ids : s.live ≠ [] → s.updateTimer ≠ s.displayTimer
  function : ∀ t ∈ s.live, t.var = .display → ∃ f, s.displayFunction = some f

theorem Apart.own {s : SamplingState F} (h : Apart s) : OwnAction s where
  update t ht hv := by
    have hne := h.ids (List.ne_nil_of_mem ht)
    rw [hv]
    unfold handler
    rw [if_pos (show s.value .update = s.updateTimer from rfl), if_neg (show s.value .update ≠ s.displayTimer from hne)]
    rfl
  display t ht hv := by
    have hne := h.ids (List.ne_nil_of_mem ht)
    obtain ⟨f, hf⟩ := h.function t ht hv
    refine ⟨f, hf, ?_⟩
    rw [hv]
    unfold handler
    rw [if_neg (show s.value .display ≠ s.updateTimer from hne.symm),
      if_pos (show s.value .display = s.displayTimer from rfl), hf]
    rfl

/-- When the variables hold the same id, every tick runs both actions. -/
theorem not_own {s : SamplingState F} {t : Timer} (ht : t ∈ s.live) (h : s.updateTimer = s.displayTimer) :
    ¬ OwnAction s := by
  intro hown
  have both (v : TimerVar) : (handler s v).length = 2 := by
    cases v with
    | update => simp [handler, value, h]
    | display => simp [handler, value, h]
  have hlen := both t.var
  cases hv : t.var with
  | update =>
    rw [hown.update t ht hv] at hlen
    cases hlen
  | display =>
    obtain ⟨f, -, hf⟩ := hown.display t ht hv
    rw [hf] at hlen
    cases hlen

theorem createTimer_some (s : SamplingState F) (v : TimerVar) {sys : Sys} {id : Nat} (h : sys.timerCreate = some id) :
    createTimer s v sys = (sys.ret, { s.write id v with live := ⟨id, v⟩ :: s.live }) := by
  unfold createTimer
  rw [h]

theorem createTimer_none (s : SamplingState F) (v : TimerVar) {sys : Sys} (h : sys.timerCreate = none) :
    createTimer s v sys = (-1, s) := by
  unfold createTimer
  rw [h]

/-- A start whose signal handler cannot be set creates no timer. -/
theorem startTimer_unset {s : SamplingState F} {sys : Sys} (v : TimerVar) (h : ¬ (s.handlerIsset ∨ sys.sigaction)) :
    (startTimer s v sys).2 = s := by
  rw [not_or] at h
  unfold startTimer setHandler
  rw [if_neg h.1, if_neg h.2]
  rfl

/-- What a start leaves behind when the signal handler is set, whatever it returns. -/
theorem startTimer_set {s : SamplingState F} {sys : Sys} (v : TimerVar) (h : s.handlerIsset ∨ sys.sigaction) :
    (startTimer s v sys).2 = (createTimer { s with handlerIsset := true } v sys).2 := by
  have hset : (if s.handlerIsset then (0, s) else setHandler s sys) = (0, { s with handlerIsset := true }) := by
    by_cases hi : s.handlerIsset = true
    · rw [if_pos hi, ← hi]
    · unfold setHandler
      rw [if_neg hi, if_pos (h.resolve_left hi)]
  unfold startTimer
  simp only [hset]
  rw [if_neg (by decide)]
  split_ifs
  · rfl
  · rfl

/-- A start with a fresh id keeps the ids apart, one with another id makes them equal. -/
theorem startTimer_apart {s : SamplingState F} (sys : Sys) (v : TimerVar) {other : Nat}
    (hother : ∀ id, (s.write id v).updateTimer = (s.write id v).displayTimer ↔ id = other) (h : Apart s)
    (hf : v = .display → ∃ f, s.displayFunction = some f) :
    ((s.handlerIsset ∨ sys.sigaction → sys.timerCreate ≠ some other) →
      Apart (startTimer s v sys).2) ∧
    (¬ (s.handlerIsset ∨ sys.sigaction → sys.timerCreate ≠ some other) →
      ¬ OwnAction (startTimer s v sys).2) := by
  by_cases hset : s.handlerIsset ∨ sys.sigaction
  · rw [startTimer_set v hset]
    cases hc : sys.timerCreate with
    | none =>
      rw [createTimer_none _ v hc]
      exact ⟨fun _ => ⟨h.ids, h.function⟩, fun hn => absurd (fun _ hid => by cases hid) hn⟩
    | some id =>
      rw [createTimer_some _ v hc]
      have hids := hother id
      constructor
      · intro hfresh
        have hne : id ≠ other := fun he => hfresh hset (congrArg some he)
        refine ⟨fun _ heq => hne (hids.mp ?_), fun t ht hv => ?_⟩
        · cases v with
          | update => exact heq
          | display => exact heq
        · have hfun : ∃ f, s.displayFunction = some f := by
            rcases List.mem_cons.mp ht with rfl | hold
            · exact hf hv
            · exact h.function t hold hv
          cases v with
          | update => exact hfun
          | display => exact hfun
      · intro hn
        have heq : id = other := by
          by_contra hne
          exact hn fun _ hid => hne (Option.some.inj hid)
        refine not_own (t := ⟨id, v⟩) List.mem_cons_self ?_
        cases v with
        | update => exact hids.mpr heq
        | display => exact hids.mpr heq
  · rw [startTimer_unset v hset]
    exact ⟨fun _ => h, fun hn => absurd (fun hs => absurd hs hset) hn⟩

/-- A deletion leaves the ids where they are. -/
theorem timerDelete_apart {s : SamplingState F} (h : Apart s) (id : Nat) : Apart (timerDelete s id).2 := by
  unfold timerDelete
  split_ifs
  · refine ⟨fun hne => h.ids fun hnil => hne ?_, fun t ht => h.function t ((List.mem_filter.mp ht).1)⟩
    rw [hnil]
    rfl
  · exact h

/-- One call: a fresh id keeps the ids apart, another id breaks the actions at once. -/
theorem sampling_step {s s' : SamplingState F} (c : Call F) (h : Apart s) (hn : sampling.next s c = some s') :
    (FreshId s c → Apart s') ∧ (¬ FreshId s c → ¬ OwnAction s') := by
  cases c with
  | samplingStart sys =>
    obtain ⟨-, hs⟩ := Option.ite_none_right_eq_some.mp hn
    cases hs
    obtain ⟨hgood, hbad⟩ := startTimer_apart sys .update (fun _ => Iff.rfl) h fun hv => by cases hv
    exact ⟨fun hf => ⟨(hgood hf).ids, (hgood hf).function⟩, fun hf ho => hbad hf ⟨ho.update, ho.display⟩⟩
  | displayStart f arg sys =>
    obtain ⟨-, hs⟩ := Option.ite_none_right_eq_some.mp hn
    cases hs
    have hset : Apart { s with displayFunction := some f, displayArg := arg } := ⟨h.ids, fun _ _ _ => ⟨f, rfl⟩⟩
    obtain ⟨hgood, hbad⟩ := startTimer_apart sys .display (fun _ => eq_comm) hset fun _ => ⟨f, rfl⟩
    exact ⟨fun hf => ⟨(hgood hf).ids, (hgood hf).function⟩, fun hf ho => hbad hf ⟨ho.update, ho.display⟩⟩
  | samplingStop =>
    obtain ⟨-, hs⟩ := Option.ite_none_right_eq_some.mp hn
    cases hs
    have hdel := timerDelete_apart h s.updateTimer
    exact ⟨fun _ => ⟨hdel.ids, hdel.function⟩, fun hf => absurd trivial hf⟩
  | displayStop =>
    obtain ⟨-, hs⟩ := Option.ite_none_right_eq_some.mp hn
    cases hs
    have hdel := timerDelete_apart h s.displayTimer
    exact ⟨fun _ => ⟨hdel.ids, hdel.function⟩, fun hf => absurd trivial hf⟩

/-! ## Runs -/

/-- **In every state of a run every timer that expires runs its own action and nothing else, exactly when every start
of the run gets a fresh id.** -/
theorem own_throughout_iff (calls : List (Call F)) (hrun : (sampling.exec init calls).isSome) :
    sampling.Throughout OwnAction init calls ↔ sampling.Along FreshId init calls :=
  Lts.throughout_iff (fun _ h => h.own) (fun _ c _ h hn => sampling_step c h hn)
    ⟨fun h => absurd rfl h, fun _ ht => absurd ht List.not_mem_nil⟩ hrun

/-- A sampling timer and a display timer with ids of their own. -/
theorem own_throughout_both :
    let start (id : Nat) : Sys := ⟨true, some id, 0, true⟩
    sampling.Throughout OwnAction init
      [.samplingStart (start 1), .displayStart () 2 (start 2), .samplingStop, .samplingStart (start 1)] :=
  (own_throughout_iff _ (by decide)).mpr (by decide)

/-- The first sampling timer has id 0, the value of `display_timer` before any display: the handler calls a display
function that was not set. -/
theorem zero_id_null_call :
    ¬ ∀ calls : List (Call Unit), (sampling.exec init calls).isSome → sampling.Throughout OwnAction init calls := by
  intro h
  have hown := (h [.samplingStart ⟨true, some 0, 0, true⟩] (by decide)).2 _ rfl
  have hcalls : handler _ _ = [.hmonUpdate 1] := hown.update ⟨0, .update⟩ List.mem_cons_self rfl
  exact absurd hcalls (by decide)

end Hmon
