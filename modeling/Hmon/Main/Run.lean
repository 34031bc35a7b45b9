import Hmon.Main.Options
import Hmon.Restrict

/-!
# A run of `hmon` (`main` in `main.c`)

* `World` : what the machine, the import of a file and the system calls answer; `Act` : what `main` does with the
  library, the display, the timers and the executable; `Exit` : the ways in which it ends;
* `runMain` : `main` behind the option loop; `runProgram` : `main` on a command line;
* `life` : the order in which the library may be used; `LifeState.Ended` : what each way to end leaves behind;
* `program_run` : **every run uses the library in this order, leaves behind what its end says, and registers monitors of
  the restricted domain only**.
-/

namespace Hmon.Main
open Lib Config

/-! ## `main` -/

variable {V M : Type}

/-- An import: the registrations that it makes, and whether it returns. `yyerror`, `perror_EXIT` and `new_hmonitor` end
the program in it, and so does the NULL or deleted monitor of a loop. -/
structure ImportRun (M : Type) where
  registrations : List (M × Nat)
  returns : Bool

/-- `hmon_import` of a path: one that is NULL is only reported, and so is a file that cannot be opened. -/
def ImportRun.refused (M : Type) : ImportRun M := ⟨[], true⟩

/-- `configuration` is the import of a file, `turns` what `hmon_display_refresh` returns in the turns of the loop before
a signal ends it, and `interruptions` the calls of `waitpid` that end with `EINTR`. -/
structure World (V M : Type) where
  topo : Topo
  mon : M → Hmonitor Thread V M
  perfPlugin : Text → Bool
  location : Text → Option Cpuset
  configuration : Text → ImportRun M
  fork : Int
  sigactions : Bool
  turns : List Int
  interruptions : Nat

inductive Act
  | libInit
  | restrict (domain : Cpuset)
  | import (inputPath : Option Text)
  | displayInit
  | start
  | startExecutable (runnable : Text) (runArgs : Option Nat)
  | procCpubind (pid : Int) (domain : Cpuset)
  | update (output : Int)
  | refresh (verbose : Int)
  | usleep (us : Int)
  | waitpid (pid : Int)
  | samplingStart (us : Int)
  | periodicStart (arg : Int)
  | samplingStop
  | periodicStop
  | displayFinalize
  | libFinalize
  deriving DecidableEq

/-- How `main` ends: a text was printed instead of a run; the import did not return; `--input` is missing; there is no
monitor; `fork` or `sigaction` failed; it returns; or it uses a NULL pointer: that of a plugin, of a location, or one in
a registration. -/
inductive Exit
  | printed
  | importEnded
  | noInput
  | noMonitor
  | forkFailed
  | noHandler
  | done
  | nullPlugin
  | nullLocation
  | registrationFault
  deriving DecidableEq

/-- What `main` did, the registry when it ended, and how it ended. -/
structure Run (V M : Type) where
  acts : List Act
  registry : Option (Registry V M)
  exit : Exit

def Run.behind (acts : List Act) (r : Run V M) : Run V M := { r with acts := acts ++ r.acts }

def PerfOption.int (opt : PerfOption) : Int :=
  match opt.value with
  | .int n => n
  | _ => 0

def PerfOption.str (opt : PerfOption) : Option Text :=
  match opt.value with
  | .string s => s
  | _ => none

/-- `if(display_opt.set)` -/
def displayed (opts : Store) (act : Act) : List Act := if (opts .display).set then [act] else []

/-- `refresh_opt`, with its default value when it is not used. -/
def refreshValue (opts : Store) : Int :=
  if (opts .refresh).set then (opts .refresh).int else atoiText (opts .refresh).defVal

/-- `while(!hmonitor_utility_stop)` -/
def monitorTopology (opts : Store) : (turns : List Int) → List Act
  | [] => []
  | r :: turns =>
    if (opts .display).set ∧ r = -1 then [.update 1, .refresh 0]
    else .update 1 :: displayed opts (.refresh 0) ++ .usleep (refreshValue opts) :: monitorTopology opts turns

/-- `if(pid>0)` -/
def monitorPid (w : World V M) (opts : Store) (pid : Int) : List Act :=
  if (opts .refresh).set then
    .samplingStart (refreshValue opts) :: displayed opts (.periodicStart 1) ++
      List.replicate (w.interruptions + 1) (.waitpid pid) ++ .samplingStop :: displayed opts .periodicStop
  else [.update 1, .waitpid pid, .update 1] ++ displayed opts (.refresh 1)

def cleanup (opts : Store) (L : Registry V M) : Run V M :=
  ⟨displayed opts .displayFinalize ++ [.libFinalize], some L, .done⟩

/-- From `if(pid == 0)` on. -/
def monitor (w : World V M) (opts : Store) (pid : Int) (L : Registry V M) : Run V M :=
  if pid = 0 then
    if w.sigactions then (cleanup opts L).behind (monitorTopology opts w.turns) else ⟨[], some L, .noHandler⟩
  else if 0 < pid then (cleanup opts L).behind (monitorPid w opts pid)
  else cleanup opts L

/-- From `if(runnable)` on; `domain` is `restrict_domain`. -/
def monitorRunnable (w : World V M) (opts : Store) (runnable : Option Text) (runArgs : Option Nat) (pid : Int)
    (domain : Cpuset) (L : Registry V M) : Run V M :=
  match runnable with
  | none => monitor w opts pid L
  | some bin =>
    Run.behind [.startExecutable bin runArgs] <|
      if w.fork < 0 then ⟨[], some L, .forkFailed⟩
      else Run.behind (if (opts .restrict).set then [.procCpubind w.fork domain] else []) (monitor w opts w.fork L)

/-- From `hmon_display_init` on. -/
def startMonitoring (w : World V M) (opts : Store) (runnable : Option Text) (runArgs : Option Nat) (pid : Int)
    (domain : Cpuset) (L : Registry V M) : Run V M :=
  (monitorRunnable w opts runnable runArgs pid domain L).behind (displayed opts .displayInit ++ [.start])

/-- `if(restrict_opt.set)`: the calls of `hmon_restrict`, and `restrict_domain`; `none` where `location_parse` gets
NULL. -/
def restriction (w : World V M) (opts : Store) : Option (List Cpuset × Cpuset) :=
  if (opts .restrict).set then (opts .restrict).str.map fun s => (w.location s).elim ([], ∅) fun d => ([d], d)
  else some ([], ∅)

section
variable [DecidableEq M]

/-- `hmon_import_hmonitors` -/
def World.imported (w : World V M) (opts : Store) : ImportRun M := (opts .input).str.elim (.refused M) w.configuration

/-- What `hmon_restrict` and `hmon_import_hmonitors` do to the registry. -/
def registryCalls (w : World V M) (opts : Store) (domains : List Cpuset) : List (RegLabel M) :=
  domains.map .restrict ++ (w.imported opts).registrations.map fun r => .register r.1 r.2

/-- From `hmon_lib_init` on. -/
def runLibrary (w : World V M) (opts : Store) (runnable : Option Text) (runArgs : Option Nat) (pid : Int) : Run V M :=
  Run.behind [.libInit] <|
    match restriction w opts with
    | none => ⟨[], some (.init w.topo w.mon), .nullLocation⟩
    | some (domains, domain) =>
      Run.behind (domains.map .restrict ++ [.import (opts .input).str]) <|
        match regSys.exec (.init w.topo w.mon) (registryCalls w opts domains) with
        | none => ⟨[], none, .registrationFault⟩
        | some L =>
          if (w.imported opts).returns = false then ⟨[], some L, .importEnded⟩
          else if (opts .input).set then
            if L.monitors.length = 0 then ⟨[.libFinalize], some L, .noMonitor⟩
            else startMonitoring w opts runnable runArgs pid domain L
          else ⟨[], some L, .noInput⟩

/-- `main` behind the option loop. -/
def runMain (w : World V M) (opts : Store) (runnable : Option Text) (runArgs : Option Nat) : Run V M :=
  if (opts .help).set then ⟨[], none, .printed⟩
  else if (opts .plugins).set then ⟨[], none, .printed⟩
  else if (opts .perf).set then
    match (opts .perf).str with
    | none => ⟨[], none, .printed⟩
    | some name => ⟨[], none, if w.perfPlugin name then .printed else .nullPlugin⟩
  else runLibrary w opts runnable runArgs (if (opts .pid).set then (opts .pid).int else 0)

/-- `main` on a command line; a bad option is reported with the usage. -/
def runProgram (w : World V M) (argv : List Text) : Option (Run V M) :=
  match readOptions argv with
  | some (.ok (.read opts _ runnable runArgs)) => some (runMain w opts runnable runArgs)
  | some (.ok (.bad _ _)) => some ⟨[], none, .printed⟩
  | _ => none

end

/-! ## The order of the calls -/

inductive LibPhase
  | absent
  | ready
  | started
  | finalized
  deriving DecidableEq

structure LifeState where
  lib : LibPhase
  display : Bool
  sampling : Bool
  periodic : Bool
  deriving DecidableEq

/-- Nothing was called. -/
def LifeState.init : LifeState := ⟨.absent, false, false, false⟩

/-- When a call is allowed: the registry changes before the start, only `main` or the timer updates, what is started is
stopped, and nothing is used behind its end. -/
def Act.Allowed (s : LifeState) : Act → Prop
  | .libInit => s.lib = .absent
  | .restrict _ | .import _ | .start => s.lib = .ready
  | .displayInit => s.lib = .ready ∧ s.display = false
  | .startExecutable _ _ | .procCpubind _ _ | .usleep _ | .waitpid _ => s.lib = .started
  | .update _ => s.lib = .started ∧ s.sampling = false
  | .refresh _ => s.lib = .started ∧ s.display = true ∧ s.periodic = false
  | .samplingStart _ => s.lib = .started ∧ s.sampling = false
  | .periodicStart _ => s.lib = .started ∧ s.display = true ∧ s.periodic = false
  | .samplingStop => s.lib = .started ∧ s.sampling = true
  | .periodicStop => s.lib = .started ∧ s.periodic = true
  | .displayFinalize => s.display = true ∧ s.periodic = false
  | .libFinalize => (s.lib = .ready ∨ s.lib = .started) ∧ s.display = false ∧ s.sampling = false ∧ s.periodic = false

instance (s : LifeState) (a : Act) : Decidable (a.Allowed s) := by
  cases a <;> unfold Act.Allowed <;> infer_instance

def Act.effect (s : LifeState) : Act → LifeState
  | .libInit => { s with lib := .ready }
  | .start => { s with lib := .started }
  | .displayInit => { s with display := true }
  | .samplingStart _ => { s with sampling := true }
  | .periodicStart _ => { s with periodic := true }
  | .samplingStop => { s with sampling := false }
  | .periodicStop => { s with periodic := false }
  | .displayFinalize => { s with display := false }
  | .libFinalize => { s with lib := .finalized }
  | _ => s

def life : Lts LifeState Act := ⟨fun s a => if a.Allowed s then some (a.effect s) else none⟩

/-- What is left when `main` ends: nothing where it only printed, found no monitor or returns; the library where it ends
before the monitors are started; the library and the display where it ends behind that without returning. There is never
a timer. -/
def LifeState.Ended (s : LifeState) : Exit → Prop
  | .printed | .nullPlugin => s = .init
  | .importEnded | .noInput | .nullLocation | .registrationFault => s = ⟨.ready, false, false, false⟩
  | .noMonitor | .done => s = ⟨.finalized, false, false, false⟩
  | .forkFailed | .noHandler => s.lib = .started ∧ s.sampling = false ∧ s.periodic = false

/-- The calls of a run are in order. -/
def Run.Ordered (r : Run V M) (s : LifeState) : Prop := ∃ s', life.exec s r.acts = some s' ∧ s'.Ended r.exit

/-! ## Every part keeps the order -/

theorem exec_then {s s₁ s₂ : LifeState} {acts acts' : List Act} (h : life.exec s acts = some s₁)
    (h' : life.exec s₁ acts' = some s₂) : life.exec s (acts ++ acts') = some s₂ := by
  rw [Lts.exec_append, h]
  exact h'

theorem Run.Ordered.behind {r : Run V M} {acts : List Act} {s s₁ : LifeState} (hacts : life.exec s acts = some s₁)
    (h : r.Ordered s₁) : (r.behind acts).Ordered s := by
  obtain ⟨s', hexec, hend⟩ := h
  exact ⟨s', exec_then hacts hexec, hend⟩

/-- The state while `main` monitors. -/
def running (opts : Store) : LifeState := ⟨.started, (opts .display).set, false, false⟩

/-- The library is initialised, and nothing else is. -/
def LifeState.ready : LifeState := ⟨.ready, false, false, false⟩

/-- Something that is done with the display only. -/
theorem exec_displayed (opts : Store) {s s' : LifeState} {act : Act}
    (h : (opts .display).set = true → life.exec s [act] = some s') (hnot : (opts .display).set = false → s = s') :
    life.exec s (displayed opts act) = some s' := by
  unfold displayed
  cases hd : (opts .display).set with
  | false =>
    rw [if_neg (by decide), hnot hd]
    rfl
  | true =>
    rw [if_pos rfl]
    exact h hd

theorem monitorTopology_order (opts : Store) (turns : List Int) :
    life.exec (running opts) (monitorTopology opts turns) = some (running opts) := by
  induction turns with
  | nil => rfl
  | cons r turns ih =>
    have hupdate : life.exec (running opts) [.update 1] = some (running opts) := rfl
    have hrefresh : life.exec (running opts) (displayed opts (.refresh 0)) = some (running opts) :=
      exec_displayed opts (fun hd => by unfold running; rw [hd]; rfl) fun _ => rfl
    unfold monitorTopology
    split_ifs with hr
    · have hd : displayed opts (.refresh 0) = [.refresh 0] := if_pos hr.1
      rw [hd] at hrefresh
      exact exec_then hupdate hrefresh
    · have hsleep : life.exec (running opts) [.usleep (refreshValue opts)] = some (running opts) := rfl
      exact exec_then (exec_then hupdate hrefresh) (exec_then hsleep ih)

theorem waits_order {s : LifeState} (hs : s.lib = .started) (n : Nat) (pid : Int) :
    life.exec s (List.replicate n (.waitpid pid)) = some s := by
  induction n with
  | zero => rfl
  | succ n ih =>
    have hwait : life.exec s [.waitpid pid] = some s := by
      rw [Lts.exec_cons_eq_some]
      exact ⟨s, if_pos hs, rfl⟩
    exact exec_then hwait ih

/-- Both timers run between their starts and their stops. -/
theorem monitorPid_order (w : World V M) (opts : Store) (pid : Int) :
    life.exec (running opts) (monitorPid w opts pid) = some (running opts) := by
  unfold monitorPid
  split_ifs
  · have hstart : life.exec (running opts) [.samplingStart (refreshValue opts)] =
        some ⟨.started, (opts .display).set, true, false⟩ := rfl
    have hperiodic : life.exec ⟨.started, (opts .display).set, true, false⟩ (displayed opts (.periodicStart 1)) =
        some ⟨.started, (opts .display).set, true, (opts .display).set⟩ :=
      exec_displayed opts (fun hd => by rw [hd]; rfl) fun hd => by rw [hd]
    have hstop : life.exec ⟨.started, (opts .display).set, true, (opts .display).set⟩ [.samplingStop] =
        some ⟨.started, (opts .display).set, false, (opts .display).set⟩ := rfl
    have hperiodicStop : life.exec ⟨.started, (opts .display).set, false, (opts .display).set⟩
        (displayed opts .periodicStop) = some (running opts) :=
      exec_displayed opts (fun hd => by unfold running; rw [hd]; rfl) fun hd => by unfold running; rw [hd]
    exact exec_then (exec_then (exec_then hstart hperiodic) (waits_order rfl _ pid)) (exec_then hstop hperiodicStop)
  · have hupdates : life.exec (running opts) [.update 1, .waitpid pid, .update 1] = some (running opts) := rfl
    have hrefresh : life.exec (running opts) (displayed opts (.refresh 1)) = some (running opts) :=
      exec_displayed opts (fun hd => by unfold running; rw [hd]; rfl) fun _ => rfl
    exact exec_then hupdates hrefresh

theorem cleanup_ordered (opts : Store) (L : Registry V M) : (cleanup opts L).Ordered (running opts) := by
  have hdisplay : life.exec (running opts) (displayed opts .displayFinalize) = some ⟨.started, false, false, false⟩ :=
    exec_displayed opts (fun hd => by unfold running; rw [hd]; rfl) fun hd => by unfold running; rw [hd]
  exact ⟨⟨.finalized, false, false, false⟩, exec_then hdisplay rfl, rfl⟩

theorem monitor_ordered (w : World V M) (opts : Store) (pid : Int) (L : Registry V M) :
    (monitor w opts pid L).Ordered (running opts) := by
  unfold monitor
  split_ifs
  · exact (cleanup_ordered opts L).behind (monitorTopology_order opts w.turns)
  · exact ⟨running opts, rfl, rfl, rfl, rfl⟩
  · exact (cleanup_ordered opts L).behind (monitorPid_order w opts pid)
  · exact cleanup_ordered opts L

theorem monitorRunnable_ordered (w : World V M) (opts : Store) (runnable : Option Text) (runArgs : Option Nat)
    (pid : Int) (domain : Cpuset) (L : Registry V M) :
    (monitorRunnable w opts runnable runArgs pid domain L).Ordered (running opts) := by
  cases runnable with
  | none => exact monitor_ordered w opts pid L
  | some bin =>
    refine @Run.Ordered.behind _ _ _ _ _ (running opts) rfl ?_
    split_ifs
    · exact ⟨running opts, rfl, rfl, rfl, rfl⟩
    · exact (monitor_ordered w opts w.fork L).behind rfl
    · exact (monitor_ordered w opts w.fork L).behind rfl

theorem displayInit_order (opts : Store) :
    life.exec .ready (displayed opts .displayInit ++ [.start]) = some (running opts) := by
  have hdisplay : life.exec .ready (displayed opts .displayInit) = some ⟨.ready, (opts .display).set, false, false⟩ :=
    exec_displayed opts (fun hd => by rw [hd]; rfl) fun hd => by rw [hd]; rfl
  exact exec_then hdisplay rfl

section
variable [DecidableEq M]

theorem restricts_order (domains : List Cpuset) (inputPath : Option Text) :
    life.exec .ready (domains.map .restrict ++ [.import inputPath]) = some .ready := by
  refine @exec_then _ .ready _ _ _ ?_ rfl
  induction domains with
  | nil => rfl
  | cons d domains ih => exact ih

theorem runLibrary_ordered (w : World V M) (opts : Store) (runnable : Option Text) (runArgs : Option Nat)
    (pid : Int) : (runLibrary w opts runnable runArgs pid).Ordered .init := by
  refine @Run.Ordered.behind _ _ _ _ _ .ready rfl ?_
  split
  · exact ⟨.ready, rfl, rfl⟩
  · rename_i domains domain _
    refine .behind (restricts_order domains _) ?_
    split
    · exact ⟨.ready, rfl, rfl⟩
    · rename_i L _
      split_ifs
      · exact ⟨.ready, rfl, rfl⟩
      · exact ⟨⟨.finalized, false, false, false⟩, rfl, rfl⟩
      · exact (monitorRunnable_ordered w opts runnable runArgs pid domain L).behind (displayInit_order opts)
      · exact ⟨.ready, rfl, rfl⟩

theorem runMain_ordered (w : World V M) (opts : Store) (runnable : Option Text) (runArgs : Option Nat) :
    (runMain w opts runnable runArgs).Ordered .init := by
  have hempty (e : Exit) (he : e = .printed ∨ e = .nullPlugin) :
      Run.Ordered (⟨[], none, e⟩ : Run V M) .init := by
    refine ⟨.init, rfl, ?_⟩
    rcases he with rfl | rfl
    · rfl
    · rfl
  unfold runMain
  split_ifs
  · exact hempty _ (Or.inl rfl)
  · exact hempty _ (Or.inl rfl)
  · split
    · exact hempty _ (Or.inl rfl)
    · refine hempty _ ?_
      split_ifs
      · exact Or.inl rfl
      · exact Or.inr rfl
  · exact runLibrary_ordered w opts runnable runArgs _
  · exact runLibrary_ordered w opts runnable runArgs _

/-! ## The registry of a run -/

/-- The registered monitors are inside `allowed_cpuset`, and inside the domain of every restriction that was made. -/
def Run.Inside (w : World V M) (r : Run V M) : Prop :=
  ∀ L ∈ r.registry, AllInside L ∧ ∀ d, .restrict d ∈ r.acts → d ⊆ w.topo.completeCpuset →
    ∀ m ∈ L.registered, (L.mon m).location.cpuset ⊆ d

theorem along_register (L : Registry V M) (rs : List (M × Nat)) :
    regSys.Along Harmless L (rs.map fun r => .register r.1 r.2) := by
  induction rs generalizing L with
  | nil => trivial
  | cons r rs ih => exact ⟨trivial, fun L' _ => ih L'⟩

/-- `main` restricts before it imports: there is no monitor yet. -/
theorem along_calls (topo : Topo) (mon : M → Hmonitor Thread V M) {domains : List Cpuset} (hd : domains.length ≤ 1)
    (rs : List (M × Nat)) :
    regSys.Along Harmless (.init topo mon) (domains.map .restrict ++ rs.map fun r => .register r.1 r.2) := by
  match domains with
  | [] => exact along_register _ rs
  | [d] =>
    exact ⟨fun _ m hm => absurd hm (by simp [Registry.init, Registry.registered]), fun L' _ => along_register L' rs⟩

theorem register_allowed {L L' : Registry V M} (hs : L.Sound) {rs : List (M × Nat)}
    (h : regSys.exec L (rs.map fun r => .register r.1 r.2) = some L') : L'.allowed = L.allowed := by
  induction rs generalizing L with
  | nil => cases h; rfl
  | cons r rs ih =>
    obtain ⟨L₁, hn, hrest⟩ := Lts.exec_cons_eq_some.mp h
    have hn : regNext L (.register r.1 r.2) = some L₁ := hn
    rcases regNext_cases hs hn with rfl | ⟨m, display, -, hreg⟩ | ⟨d, hd, -⟩
    · exact ih hs hrest
    · exact (ih (hreg.sound hs) hrest).trans hreg.allowed
    · cases hd

theorem regNext_restrict {L : Registry V M} {d : Cpuset} (h : d ⊆ L.allowed) :
    regNext L (.restrict d) = some { L with allowed := d } := by
  show (hmonRestrict L d).toOption.map Prod.fst = _
  rw [hmonRestrict_included h]
  rfl

omit [DecidableEq M] in
theorem restriction_length {w : World V M} {opts : Store} {domains : List Cpuset} {domain : Cpuset}
    (h : restriction w opts = some (domains, domain)) : domains.length ≤ 1 := by
  unfold restriction at h
  split_ifs at h
  · obtain ⟨s, -, hs⟩ := Option.map_eq_some_iff.mp h
    cases hl : w.location s with
    | none => rw [hl] at hs; cases hs; exact Nat.zero_le 1
    | some d => rw [hl] at hs; cases hs; exact Nat.le_refl 1
  · cases h
    exact Nat.zero_le 1

/-- The registry after the import. -/
theorem registryCalls_inside {w : World V M} {opts : Store} {domains : List Cpuset} (hd : domains.length ≤ 1)
    {L : Registry V M} (h : regSys.exec (.init w.topo w.mon) (registryCalls w opts domains) = some L) :
    AllInside L ∧ ∀ d ∈ domains, d ⊆ w.topo.completeCpuset → ∀ m ∈ L.registered, (L.mon m).location.cpuset ⊆ d := by
  have hinit : regSys.Reach Empty Harmless (.init w.topo w.mon) := .init ⟨_, _, rfl⟩
  have hinside : AllInside L := allInside_of_harmless (hinit.of_along (along_calls w.topo w.mon hd _) h)
  refine ⟨hinside, fun d hmem hsub m hm => ?_⟩
  match domains, hd, hmem with
  | [d'], _, hmem =>
    cases List.mem_singleton.mp hmem
    obtain ⟨L₁, hn, h⟩ := Lts.exec_cons_eq_some.mp h
    have hrestrict : L₁ = { Registry.init w.topo w.mon with allowed := d } :=
      Option.some.inj (hn.symm.trans (regNext_restrict hsub))
    subst hrestrict
    have hsound : Registry.Sound { Registry.init w.topo w.mon with allowed := d } := by
      have h0 := Registry.init_sound w.topo w.mon
      exact ⟨h0.fits, h0.fitsAt, h0.mem⟩
    have hallowed : L.allowed = d := register_allowed hsound h
    exact hallowed ▸ hinside m hm

/-! ## Where the restriction stands -/

omit [DecidableEq M] in
/-- Nothing is restricted once the library is started. -/
theorem no_restrict_started {acts : List Act} {s s' : LifeState} (hs : s.lib = .started ∨ s.lib = .finalized)
    (h : life.exec s acts = some s') (d : Cpuset) : .restrict d ∉ acts := by
  induction acts generalizing s with
  | nil => exact List.not_mem_nil
  | cons a acts ih =>
    obtain ⟨s₁, hn, hrest⟩ := Lts.exec_cons_eq_some.mp h
    obtain ⟨hallowed, heq⟩ := Option.ite_none_right_eq_some.mp hn
    have hne : s.lib ≠ .ready ∧ s.lib ≠ .absent := by
      rcases hs with hs | hs
      · rw [hs]; exact ⟨by decide, by decide⟩
      · rw [hs]; exact ⟨by decide, by decide⟩
    rw [List.mem_cons, not_or]
    refine ⟨fun hr => hne.1 ?_, ih ?_ hrest⟩
    · rw [← hr] at hallowed
      exact hallowed
    · cases heq
      cases a with
      | libInit => exact absurd hallowed hne.2
      | start => exact absurd hallowed hne.1
      | libFinalize => exact Or.inr rfl
      | _ => exact hs

omit [DecidableEq M] in
theorem startMonitoring_no_restrict (w : World V M) (opts : Store) (runnable : Option Text) (runArgs : Option Nat)
    (pid : Int) (domain : Cpuset) (L : Registry V M) (d : Cpuset) :
    .restrict d ∉ (startMonitoring w opts runnable runArgs pid domain L).acts := by
  obtain ⟨s', hexec, -⟩ := monitorRunnable_ordered w opts runnable runArgs pid domain L
  refine List.not_mem_append (fun h => ?_) (no_restrict_started (Or.inl rfl) hexec d)
  unfold displayed at h
  split_ifs at h
  · simp at h
  · simp at h

omit [DecidableEq M] in
theorem startMonitoring_registry (w : World V M) (opts : Store) (runnable : Option Text) (runArgs : Option Nat)
    (pid : Int) (domain : Cpuset) (L : Registry V M) :
    (startMonitoring w opts runnable runArgs pid domain L).registry = some L := by
  show (monitorRunnable w opts runnable runArgs pid domain L).registry = some L
  have hmonitor (pid : Int) : (monitor w opts pid L).registry = some L := by
    unfold monitor
    split_ifs <;> rfl
  cases runnable with
  | none => exact hmonitor pid
  | some bin =>
    show (ite _ _ _ : Run V M).registry = some L
    split_ifs
    · rfl
    · exact hmonitor w.fork
    · exact hmonitor w.fork

omit [DecidableEq M] in
theorem Run.Inside.of_none {w : World V M} {r : Run V M} (h : r.registry = none) : r.Inside w := fun L hL =>
  absurd (h.symm.trans hL) (Option.some_ne_none L).symm

omit [DecidableEq M] in
theorem Run.Inside.behind {w : World V M} {r : Run V M} {acts : List Act} (hacts : ∀ d, .restrict d ∉ acts)
    (h : r.Inside w) : (r.behind acts).Inside w := fun L hL =>
  ⟨(h L hL).1, fun d hd => (h L hL).2 d ((List.mem_append.mp hd).resolve_left (hacts d))⟩

/-- A run whose restrictions and registrations are behind it. -/
theorem inside_of_calls {w : World V M} {opts : Store} {domains : List Cpuset} {domain : Cpuset}
    (hr : restriction w opts = some (domains, domain)) {L : Registry V M}
    (h : regSys.exec (.init w.topo w.mon) (registryCalls w opts domains) = some L) (inputPath : Option Text)
    {r : Run V M} (hreg : r.registry = some L) (hacts : ∀ d, .restrict d ∉ r.acts) :
    (r.behind (domains.map .restrict ++ [.import inputPath])).Inside w := by
  obtain ⟨hall, hdomain⟩ := registryCalls_inside (restriction_length hr) h
  intro L' hL'
  cases hreg.symm.trans hL'
  refine ⟨hall, fun d hd => hdomain d ?_⟩
  have hmem := (List.mem_append.mp hd).resolve_right (hacts d)
  simpa using hmem

theorem runLibrary_inside (w : World V M) (opts : Store) (runnable : Option Text) (runArgs : Option Nat) (pid : Int) :
    (runLibrary w opts runnable runArgs pid).Inside w := by
  refine .behind (fun d => by simp) ?_
  split
  · rintro L hL
    cases hL
    exact ⟨fun m hm => absurd hm (by simp [Registry.init, Registry.registered]), fun d hd => absurd hd List.not_mem_nil⟩
  · rename_i domains domain hr
    split
    · exact .of_none rfl
    · rename_i L h
      refine inside_of_calls hr h _ ?_ fun d => ?_
      · split_ifs
        · rfl
        · rfl
        · exact startMonitoring_registry w opts runnable runArgs pid domain L
        · rfl
      · split_ifs
        · exact List.not_mem_nil
        · simp
        · exact startMonitoring_no_restrict w opts runnable runArgs pid domain L d
        · exact List.not_mem_nil

theorem runMain_inside (w : World V M) (opts : Store) (runnable : Option Text) (runArgs : Option Nat) :
    (runMain w opts runnable runArgs).Inside w := by
  unfold runMain
  split_ifs
  · exact .of_none rfl
  · exact .of_none rfl
  · split
    · exact .of_none rfl
    · exact .of_none rfl
  · exact runLibrary_inside w opts runnable runArgs _
  · exact runLibrary_inside w opts runnable runArgs _

/-- **Every command line has a run**: it uses the library, the display and the timers in their order, leaves behind what
its end says, never a timer, and registers monitors of the restricted domain only. -/
theorem program_run (w : World V M) (prog : Text) (args : List Text) :
    ∃ r, runProgram w (prog :: args) = some r ∧ r.Ordered .init ∧ r.Inside w := by
  obtain ⟨uses, e, rfl⟩ := exists_parts args
  unfold runProgram
  rw [readOptions_parts prog uses e]
  cases e with
  | bad arg rest h => exact ⟨_, rfl, ⟨.init, rfl, rfl⟩, .of_none rfl⟩
  | done => exact ⟨_, rfl, runMain_ordered w _ _ _, runMain_inside w _ _ _⟩
  | missing i short h => exact ⟨_, rfl, runMain_ordered w _ _ _, runMain_inside w _ _ _⟩
  | command cmd => exact ⟨_, rfl, runMain_ordered w _ _ _, runMain_inside w _ _ _⟩

end

end Hmon.Main
