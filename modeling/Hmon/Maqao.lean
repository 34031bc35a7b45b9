import Hmon.Lib.Chronicle
import Hmon.Lib.Lts
import Mathlib.Algebra.Group.Nat.Defs
import Mathlib.Data.List.Induction
import Mathlib.Data.List.Nodup
import Mathlib.Logic.Function.Basic
import Mathlib.Tactic.ByContra

/-!
# Call sites of the maqao plugin (`maqao_monitor.c`)

Any number of threads create, start, stop and reset eventsets. The numbering of the call sites is behind a mutex, the
counters are started by `pthread_once`, which reads `nb_callsite` without it.

* `maqao` : the interleavings of the calls, one access to a shared variable or to the library at a time;
* `Event`, `State.log` : what happens, in the order in which it happens;
* `Allowed` : what stands before an event; `State.Inv` : the invariant of all interleavings;
* `callsites` : **no two sets share a call site, the counters start once, the sets that were there have one, and a reset
  starts a call site that no set has; some thread that is in a call can always go on.**
-/

namespace Hmon
namespace Maqao
open Lib

/-! ## The plugin -/

inductive Event
  | numbered (callsite : UInt32)
  | onceBegin
  | startCounters (nbCallSites : UInt32)
  /-- A call of `hmonitor_eventset_init_fini` returns. -/
  | ready
  | startCounting (callsite : UInt32)
  | stopCounting (callsite : UInt32)
  | stopCountingDumb (callsite : UInt32)
  /-- `counting_start_counting` in the reset of the set with the call site `own`. -/
  | resetStart (own callsite : UInt32)
  deriving DecidableEq

/-- `pthread_once_t`. -/
inductive Once (T : Type)
  | never
  | running (t : T)
  | done
  deriving DecidableEq

/-- The next thing that a thread does. -/
inductive Pc
  | idle
  | initLock
  | initRead
  | initWrite (nb : UInt32)
  | unlock
  | once
  | onceRead
  | onceStart (nb : UInt32)
  | onceEnd
  | start (callsite : UInt32)
  | stop (callsite : UInt32)
  | resetStop (callsite : UInt32)
  | resetLock (callsite : UInt32)
  | resetRead (callsite : UInt32)
  | resetStart (callsite nb : UInt32)
  deriving DecidableEq

/-- `hmonitor_eventset_init`, `…_init_fini`, `…_start`, `…_stop` and `…_reset`, the last three with the call site of
their set. -/
inductive Call
  | init
  | initFini
  | start (callsite : UInt32)
  | stop (callsite : UInt32)
  | reset (callsite : UInt32)

inductive Label (T : Type)
  | call (t : T) (c : Call)
  | step (t : T)

structure Shared (T : Type) where
  nbCallsite : UInt32
  lock : Option T
  once : Once T
  log : List Event

structure State (T : Type) extends Shared T where
  pc : T → Pc

def Event.site? : Event → Option UInt32
  | .numbered c => some c
  | _ => none

/-- The call sites of the sets, in the order of their numbering. -/
def sites (log : List Event) : List UInt32 := log.filterMap Event.site?

def Call.entry : Call → Pc
  | .init => .initLock
  | .initFini => .once
  | .start c => .start c
  | .stop c => .stop c
  | .reset c => .resetStop c

/-- The set of the call exists. -/
def Call.Given (log : List Event) : Call → Prop
  | .init | .initFini => True
  | .start c | .stop c | .reset c => c ∈ sites log

instance (log : List Event) : (c : Call) → Decidable (c.Given log)
  | .init | .initFini => inferInstanceAs (Decidable True)
  | .start c | .stop c | .reset c => inferInstanceAs (Decidable (c ∈ sites log))

def Shared.append {T : Type} (s : Shared T) (e : Event) : Shared T := { s with log := s.log ++ [e] }

section System
variable {T : Type} [DecidableEq T]

/-- One thing that the thread `t` does. -/
def advance (s : Shared T) (t : T) : Pc → Option (Shared T × Pc)
  | .idle => none
  | .initLock => if s.lock = none then some ({ s with lock := some t }, .initRead) else none
  | .initRead => some (s, .initWrite s.nbCallsite)
  | .initWrite nb => some ({ s.append (.numbered nb) with nbCallsite := nb + 1 }, .unlock)
  | .unlock => some ({ s with lock := none }, .idle)
  | .once =>
    match s.once with
    | .never => some ({ s.append .onceBegin with once := .running t }, .onceRead)
    | .running _ => none
    | .done => some (s.append .ready, .idle)
  | .onceRead => some (s, .onceStart s.nbCallsite)
  | .onceStart nb => some (s.append (.startCounters nb), .onceEnd)
  | .onceEnd => some ({ s.append .ready with once := .done }, .idle)
  | .start c => some (s.append (.startCounting c), .idle)
  | .stop c => some (s.append (.stopCounting c), .idle)
  | .resetStop c => some (s.append (.stopCountingDumb c), .resetLock c)
  | .resetLock c => if s.lock = none then some ({ s with lock := some t }, .resetRead c) else none
  | .resetRead c => some (s, .resetStart c s.nbCallsite)
  | .resetStart c nb => some (s.append (.resetStart c nb), .unlock)

def next (s : State T) : Label T → Option (State T)
  | .call t c =>
    if s.pc t = .idle ∧ c.Given s.log then some { s with pc := Function.update s.pc t c.entry } else none
  | .step t => (advance s.toShared t (s.pc t)).map fun r => ⟨r.1, Function.update s.pc t r.2⟩

/-- The calls of the threads, in any interleaving. -/
def maqao : Lts (State T) (Label T) := ⟨next⟩

end System

def State.init (T : Type) : State T := ⟨⟨0, none, .never, []⟩, fun _ => .idle⟩

def Initially {T : Type} (s : State T) : Prop := s = State.init T

/-! ## What the log promises -/

/-- `n` is the number of sets at some moment since the once function began. -/
def Counted (log : List Event) (n : UInt32) : Prop :=
  ∃ before after k, log = before ++ .onceBegin :: after ∧ (sites before).length ≤ k ∧ k ≤ (sites log).length ∧
    n = .ofNat k

def Started (log : List Event) : Prop := ∃ n, Event.startCounters n ∈ log

/-- What stands before an event. -/
def Allowed (before : List Event) : Event → Prop
  | .numbered c => c = .ofNat (sites before).length
  | .onceBegin => .onceBegin ∉ before
  | .startCounters n => Counted before n ∧ ¬ Started before
  | .ready => Started before
  | .startCounting c | .stopCounting c | .stopCountingDumb c => c ∈ sites before
  | .resetStart own n => own ∈ sites before ∧ n = .ofNat (sites before).length

/-- The numbering and the counters, for every way to look at the log. -/
structure Exact (log : List Event) : Prop where
  distinct : (sites log).Nodup
  /-- The counters start once; sets from before the once function have one, and sets from after the start have not. -/
  counters : ∀ before between after n, log = before ++ .onceBegin :: between ++ .startCounters n :: after →
    ¬ Started (before ++ .onceBegin :: between) ∧ ¬ Started after ∧
      (∀ c ∈ sites before, c < n) ∧ ∀ c ∈ sites after, n ≤ c
  ready : ∀ before after, log = before ++ .ready :: after → Started before
  /-- A reset starts the call site of the next set: no set has it, and there is no counter for it. -/
  reset : ∀ before after own n, log = before ++ .resetStart own n :: after →
    own ∈ sites before ∧ n ∉ sites before ∧ (∀ m, .startCounters m ∈ before → m ≤ n) ∧
      ∀ c ∈ (sites after).head?, c = n

/-! ## The numbering -/

@[simp] theorem sites_append (log log' : List Event) : sites (log ++ log') = sites log ++ sites log' :=
  List.filterMap_append

@[simp] theorem sites_numbered (c : UInt32) (log : List Event) : sites (.numbered c :: log) = c :: sites log := rfl

/-- An event that is not a numbering. -/
theorem sites_other {e : Event} (h : e.site? = none) (log : List Event) : sites (e :: log) = sites log :=
  List.filterMap_cons_none h

@[simp] theorem sites_nil : sites [] = [] := rfl

section Log
variable {log : List Event}

theorem sites_eq (h : Chronicle Allowed log) : sites log = (List.range (sites log).length).map UInt32.ofNat := by
  induction log using List.reverseRecOn with
  | nil => rfl
  | append_singleton log e ih =>
    have hlog := ih h.left
    rw [sites_append]
    cases hs : e.site? with
    | none => rw [sites_other hs, sites_nil, List.append_nil]; exact hlog
    | some c =>
      cases e with
      | numbered c' =>
        have hc : c' = .ofNat (sites log).length := h log (.numbered c') [] rfl
        rw [sites_numbered, sites_nil, List.length_append, List.length_singleton, List.range_succ, List.map_append,
          ← hlog, hc]
        rfl
      | _ => cases hs

theorem toNat_ofNat {k n : ℕ} (hk : k ≤ n) (hn : n < 2 ^ 32) : (UInt32.ofNat k).toNat = k :=
  UInt32.toNat_ofNat_of_lt' (Nat.lt_of_le_of_lt hk hn)

variable (h : Chronicle Allowed log) (hn : (sites log).length < 2 ^ 32)
include h hn

theorem mem_sites {c : UInt32} : c ∈ sites log ↔ c.toNat < (sites log).length := by
  rw [sites_eq h, List.mem_map, List.length_map, List.length_range]
  constructor
  · rintro ⟨k, hk, rfl⟩
    have hlt := List.mem_range.mp hk
    rwa [toNat_ofNat (Nat.le_of_lt hlt) hn]
  · exact fun hc => ⟨c.toNat, List.mem_range.mpr hc, UInt32.ofNat_toNat⟩

theorem sites_nodup : (sites log).Nodup := by
  rw [sites_eq h]
  refine List.Nodup.map_on (fun i hi j hj hij => ?_) List.nodup_range
  rw [← toNat_ofNat (Nat.le_of_lt (List.mem_range.mp hi)) hn,
    ← toNat_ofNat (Nat.le_of_lt (List.mem_range.mp hj)) hn, hij]

/-- A set that is numbered later has a larger call site. -/
theorem later_site {before after : List Event} (hl : log = before ++ after) {c : UInt32} (hc : c ∈ sites after) :
    (sites before).length ≤ c.toNat := by
  subst hl
  by_contra hlt
  have hd := sites_nodup h hn
  rw [sites_append] at hn hd
  rw [List.length_append] at hn
  exact (List.disjoint_of_nodup_append hd) ((mem_sites h.left (by omega)).mpr (by omega)) hc

/-- **Every log in which each event is allowed is exact.** -/
theorem exact_of_allowed : Exact log where
  distinct := sites_nodup h hn
  counters before between after n hl := by
    subst hl
    have hpre : Chronicle Allowed (before ++ .onceBegin :: between) := Chronicle.left (by simpa using h)
    obtain ⟨⟨before', between', k, heq, hle, hge, hk⟩, hfirst⟩ : Counted (before ++ .onceBegin :: between) n ∧ _ :=
      h _ (.startCounters n) after (by simp)
    -- the once function began once
    have hb : before = before' := prefix_unique (hpre _ _ _ rfl) (hpre _ _ _ heq) heq
    subst hb
    have hlen : (sites (before ++ .onceBegin :: between)).length + (sites after).length < 2 ^ 32 := by
      simpa [sites_other (e := .onceBegin) rfl, sites_other (e := .startCounters n) rfl, Nat.add_assoc] using hn
    have hnat : n.toNat = k := by rw [hk, toNat_ofNat hge (by omega)]
    refine ⟨hfirst, ?_, fun c hc => ?_, fun c hc => ?_⟩
    · rintro ⟨m, hm⟩
      obtain ⟨x, y, rfl⟩ := List.append_of_mem hm
      have hagain : Counted _ m ∧ ¬ Started (before ++ .onceBegin :: between ++ .startCounters n :: x) :=
        h _ (.startCounters m) y (by simp)
      exact hagain.2 ⟨n, by simp⟩
    · have hlt := (mem_sites (hpre.left) (by simp only [sites_append, List.length_append] at hlen; omega)).mp hc
      rw [UInt32.lt_iff_toNat_lt]
      omega
    · have hge' : (sites (before ++ .onceBegin :: between ++ [.startCounters n])).length ≤ c.toNat :=
        later_site h hn (by simp) hc
      rw [sites_append, sites_other (e := .startCounters n) rfl, sites_nil, List.append_nil] at hge'
      rw [UInt32.le_iff_toNat_le]
      omega
  ready before after hl := h before .ready after hl
  reset before after own n hl := by
    subst hl
    obtain ⟨hown, hk⟩ : own ∈ sites before ∧ n = .ofNat (sites before).length := h _ (.resetStart own n) after rfl
    have hlen : (sites before).length + (sites after).length < 2 ^ 32 := by
      simpa [sites_other (e := .resetStart own n) rfl] using hn
    have hnat : n.toNat = (sites before).length := by rw [hk, toNat_ofNat (Nat.le_refl _) (by omega)]
    refine ⟨hown, fun hmem => ?_, fun m hm => ?_, fun c hc => ?_⟩
    · have hlt := (mem_sites h.left (by omega)).mp hmem
      omega
    · obtain ⟨x, y, rfl⟩ := List.append_of_mem hm
      obtain ⟨⟨_, _, k, _, _, hge, rfl⟩, -⟩ : Counted x m ∧ _ :=
        h x (.startCounters m) (y ++ .resetStart own n :: after) (by simp)
      simp only [sites_append, List.length_append] at hlen hnat
      rw [UInt32.le_iff_toNat_le, toNat_ofNat hge (by omega)]
      omega
    · have hall := sites_eq h
      cases hs : sites after with
      | nil => rw [hs] at hc; cases hc
      | cons c' cs =>
        rw [hs, List.head?_cons, Option.mem_some_iff] at hc
        subst hc
        have hat : (sites (before ++ .resetStart own n :: after))[(sites before).length]? = some c' := by
          simp [sites_other (e := .resetStart own n) rfl, hs]
        rw [hall, List.getElem?_map, Option.map_eq_some_iff] at hat
        obtain ⟨k, hget, rfl⟩ := hat
        rw [List.getElem?_eq_some_iff] at hget
        obtain ⟨_, hget⟩ := hget
        rw [List.getElem_range] at hget
        rw [hk, hget]

end Log

/-! ## The invariant -/

def Pc.locked : Pc → Bool
  | .initRead | .initWrite _ | .unlock | .resetRead _ | .resetStart _ _ => true
  | _ => false

def Pc.inOnce : Pc → Bool
  | .onceRead | .onceStart _ | .onceEnd => true
  | _ => false

section Inv
variable {T : Type}

/-- What the thread `t` knows. -/
def PcOk (s : Shared T) (t : T) : Pc → Prop
  | .idle | .initLock | .once => True
  | .initRead | .unlock => s.lock = some t
  | .initWrite nb => s.lock = some t ∧ nb = s.nbCallsite
  | .onceRead => s.once = .running t ∧ .onceBegin ∈ s.log ∧ ¬ Started s.log
  | .onceStart nb => s.once = .running t ∧ Counted s.log nb ∧ ¬ Started s.log
  | .onceEnd => s.once = .running t ∧ Started s.log
  | .start c | .stop c | .resetStop c | .resetLock c => c ∈ sites s.log
  | .resetRead c => s.lock = some t ∧ c ∈ sites s.log
  | .resetStart c nb => s.lock = some t ∧ nb = s.nbCallsite ∧ c ∈ sites s.log

structure At (s : Shared T) (t : T) (p : Pc) : Prop where
  ok : PcOk s t p
  holder : s.lock = some t → p.locked
  runner : s.once = .running t → p.inOnce

/-- The shared variables agree with the log. -/
structure Good (s : Shared T) : Prop where
  log : Chronicle Allowed s.log
  nb : s.nbCallsite = .ofNat (sites s.log).length
  never : s.once = .never → .onceBegin ∉ s.log ∧ ¬ Started s.log
  done : s.once = .done → Started s.log

structure State.Inv (s : State T) : Prop where
  good : Good s.toShared
  pc : ∀ t, At s.toShared t (s.pc t)

/-- A step of another thread than `u`. -/
structure Keeps (s s' : Shared T) (u : T) : Prop where
  lock : s'.lock = some u ↔ s.lock = some u
  nb : s.lock = some u → s'.nbCallsite = s.nbCallsite
  once : s'.once = .running u ↔ s.once = .running u
  started : s.once = .running u → Started s'.log → Started s.log
  log : s.log <+: s'.log

theorem sites_mono {log log' : List Event} (h : log <+: log') {c : UInt32} (hc : c ∈ sites log) : c ∈ sites log' := by
  obtain ⟨rest, rfl⟩ := h
  rw [sites_append]
  exact List.mem_append_left _ hc

theorem Started.mono {log log' : List Event} (h : log <+: log') (hs : Started log) : Started log' :=
  hs.imp fun _ hn => h.subset hn

theorem Counted.mono {log log' : List Event} (h : log <+: log') {n : UInt32} (hc : Counted log n) : Counted log' n := by
  obtain ⟨rest, rfl⟩ := h
  obtain ⟨before, after, k, rfl, hle, hge, hn⟩ := hc
  refine ⟨before, after ++ rest, k, by simp, hle, ?_, hn⟩
  rw [sites_append, List.length_append]
  omega

/-- The thread `u` still knows what it knew. -/
theorem At.keeps {s s' : Shared T} {u : T} {p : Pc} (hk : Keeps s s' u) (h : At s u p) : At s' u p := by
  refine ⟨?_, fun hl => h.holder (hk.lock.mp hl), fun hr => h.runner (hk.once.mp hr)⟩
  have hok := h.ok
  cases p with
  | idle | initLock | once => trivial
  | initRead | unlock => exact hk.lock.mpr hok
  | initWrite nb => exact ⟨hk.lock.mpr hok.1, hok.2.trans (hk.nb hok.1).symm⟩
  | onceRead => exact ⟨hk.once.mpr hok.1, hk.log.subset hok.2.1, fun hs => hok.2.2 (hk.started hok.1 hs)⟩
  | onceStart nb => exact ⟨hk.once.mpr hok.1, hok.2.1.mono hk.log, fun hs => hok.2.2 (hk.started hok.1 hs)⟩
  | onceEnd => exact ⟨hk.once.mpr hok.1, hok.2.mono hk.log⟩
  | start c | stop c | resetStop c | resetLock c => exact sites_mono hk.log hok
  | resetRead c => exact ⟨hk.lock.mpr hok.1, sites_mono hk.log hok.2⟩
  | resetStart c nb =>
    exact ⟨hk.lock.mpr hok.1, hok.2.1.trans (hk.nb hok.1).symm, sites_mono hk.log hok.2.2⟩

/-! ## One step -/

variable {s : Shared T} {t u : T} {p : Pc} {e : Event}

theorem started_append {log : List Event} (he : ∀ n, e ≠ .startCounters n) (h : Started (log ++ [e])) :
    Started log := by
  obtain ⟨n, hn⟩ := h
  rcases List.mem_append.mp hn with hn | hn
  · exact ⟨n, hn⟩
  · exact absurd (List.mem_singleton.mp hn).symm (he n)

/-- An event that is neither a numbering nor of the once function. -/
structure Plain (e : Event) : Prop where
  site : e.site? = none
  begin : e ≠ .onceBegin
  start : ∀ n, e ≠ .startCounters n

theorem Good.append (hg : Good s) (he : Allowed s.log e) (hp : Plain e) : Good (s.append e) where
  log := chronicle_concat hg.log he
  nb := by
    show s.nbCallsite = .ofNat (sites (s.log ++ [e])).length
    rw [sites_append, sites_other hp.site, sites_nil, List.append_nil]
    exact hg.nb
  never h := by
    obtain ⟨hb, hs⟩ := hg.never h
    refine ⟨fun hmem => ?_, fun hst => hs (started_append hp.start hst)⟩
    rcases List.mem_append.mp hmem with hmem | hmem
    · exact hb hmem
    · exact hp.begin (List.mem_singleton.mp hmem).symm
  done h := (hg.done h).mono (List.prefix_append s.log [e])

theorem Keeps.refl : Keeps s s u := ⟨Iff.rfl, fun _ => rfl, Iff.rfl, fun _ => id, List.prefix_refl _⟩

theorem Keeps.append (he : s.once = .running u → ∀ n, e ≠ .startCounters n) : Keeps s (s.append e) u :=
  ⟨Iff.rfl, fun _ => rfl, Iff.rfl, fun hr => started_append (he hr), List.prefix_append s.log [e]⟩

/-- A thread that is neither in the lock nor in the once function is not the one that is. -/
theorem At.outside (h : At s t p) (hl : p.locked = false) (ho : p.inOnce = false) :
    s.lock ≠ some t ∧ s.once ≠ .running t :=
  ⟨fun h' => by rw [h.holder h'] at hl; exact absurd hl (by decide),
    fun h' => by rw [h.runner h'] at ho; exact absurd ho (by decide)⟩

theorem At.of_outside (hl : s.lock ≠ some t) (ho : s.once ≠ .running t) (hok : PcOk s t p) : At s t p :=
  ⟨hok, fun h => absurd h hl, fun h => absurd h ho⟩

theorem Good.setLock (hg : Good s) (lock : Option T) : Good { s with lock := lock } :=
  ⟨hg.log, hg.nb, hg.never, hg.done⟩

/-- The next step of a thread at `p` is fine: it keeps the shared invariant, what the thread knows behind it, and what
the other threads know. -/
structure Fine (s s' : Shared T) (t : T) (p' : Pc) : Prop where
  good : Good s'
  self : At s' t p'
  others : ∀ u, u ≠ t → Keeps s s' u

/-- A plain event of a thread outside of the lock and the once function. -/
theorem fine_plain {p' : Pc} (hg : Good s) (h : At s t p) (hl : p.locked = false) (ho : p.inOnce = false)
    (he : Allowed s.log e) (hp : Plain e) (hok : PcOk (s.append e) t p') : Fine s (s.append e) t p' where
  good := hg.append he hp
  self := .of_outside (h.outside hl ho).1 (h.outside hl ho).2 hok
  others _ _ := .append fun _ => hp.start

/-- A thread takes the lock. -/
theorem fine_lock {p' : Pc} (hg : Good s) (h : At s t p) (ho : p.inOnce = false) (hfree : s.lock = none)
    (hl : p'.locked = true) (hok : PcOk { s with lock := some t } t p') : Fine s { s with lock := some t } t p' where
  good := hg.setLock _
  self := ⟨hok, fun _ => hl, fun hr => absurd (h.runner hr) (by rw [ho]; decide)⟩
  others u hu := by
    refine ⟨?_, fun _ => rfl, Iff.rfl, fun _ => id, List.prefix_refl _⟩
    rw [hfree]
    exact iff_of_false (fun heq => hu (Option.some.inj heq).symm) (Option.some_ne_none u).symm

/-- A thread reads `nb_callsite`. -/
theorem fine_read {p' : Pc} (hg : Good s) (h : At s t p) (hl : p'.locked = p.locked) (ho : p'.inOnce = p.inOnce)
    (hok : PcOk s t p') : Fine s s t p' :=
  ⟨hg, ⟨hok, fun h' => hl ▸ h.holder h', fun h' => ho ▸ h.runner h'⟩, fun _ _ => .refl⟩

/-- The increment under the lock numbers a set. -/
theorem fine_numbered {nb : UInt32} (hg : Good s) (h : At s t (.initWrite nb)) :
    Fine s { s.append (.numbered nb) with nbCallsite := nb + 1 } t .unlock := by
  obtain ⟨hlock, hnb⟩ := h.ok
  have hallowed : nb = .ofNat (sites s.log).length := hnb.trans hg.nb
  have hother : ∀ n, Event.numbered nb ≠ .startCounters n := nofun
  refine ⟨⟨chronicle_concat hg.log hallowed, ?_, fun hn => ?_, fun hd => ?_⟩, ⟨hlock, fun _ => rfl, h.runner⟩,
    fun u hu => ⟨Iff.rfl, fun hlu => ?_, Iff.rfl, fun _ => started_append hother, List.prefix_append _ _⟩⟩
  · show nb + 1 = .ofNat (sites (s.log ++ [.numbered nb])).length
    rw [sites_append, sites_numbered, sites_nil, List.length_append, List.length_singleton, UInt32.ofNat_add, hallowed]
    rfl
  · obtain ⟨hb, hs⟩ := hg.never hn
    refine ⟨fun hmem => ?_, fun hst => hs (started_append hother hst)⟩
    rcases List.mem_append.mp hmem with hmem | hmem
    · exact hb hmem
    · exact nomatch List.mem_singleton.mp hmem
  · exact (hg.done hd).mono (List.prefix_append _ _)
  · exact absurd (Option.some.inj (hlu.symm.trans hlock)) hu

theorem fine_unlock (hg : Good s) (h : At s t .unlock) : Fine s { s with lock := none } t .idle where
  good := hg.setLock _
  self := .of_outside nofun (fun hr => absurd (h.runner hr) (by decide)) trivial
  others u hu := by
    refine ⟨iff_of_false nofun fun hlu => hu ?_, fun _ => rfl, Iff.rfl, fun _ => id, List.prefix_refl _⟩
    exact Option.some.inj (hlu.symm.trans h.ok)

theorem fine_onceBegin (hg : Good s) (h : At s t .once) (hnever : s.once = .never) :
    Fine s { s.append .onceBegin with once := .running t } t .onceRead := by
  obtain ⟨hb, hs⟩ := hg.never hnever
  have hs' : ¬ Started (s.log ++ [.onceBegin]) := fun hst => hs (started_append (e := .onceBegin) nofun hst)
  refine ⟨⟨chronicle_concat hg.log hb, ?_, nofun, nofun⟩,
    ⟨⟨rfl, List.mem_append_right _ (List.mem_singleton_self _), hs'⟩,
      fun hl => absurd (h.holder hl) (by decide), fun _ => rfl⟩, fun u hu => ?_⟩
  · show s.nbCallsite = .ofNat (sites (s.log ++ [.onceBegin])).length
    rw [sites_append, sites_other (e := .onceBegin) rfl, sites_nil, List.append_nil]
    exact hg.nb
  · have hne : s.once ≠ .running u := by rw [hnever]; nofun
    exact ⟨Iff.rfl, fun _ => rfl, iff_of_false (fun heq => hu (by cases heq; rfl)) hne, fun hr => absurd hr hne,
      List.prefix_append _ _⟩

theorem fine_startCounters {nb : UInt32} (hg : Good s) (h : At s t (.onceStart nb)) :
    Fine s (s.append (.startCounters nb)) t .onceEnd := by
  obtain ⟨hrun, hcount, hs⟩ := h.ok
  refine ⟨⟨chronicle_concat hg.log ⟨hcount, hs⟩, ?_, fun hn => ?_, fun hd => ?_⟩,
    ⟨⟨hrun, nb, List.mem_append_right _ (List.mem_singleton_self _)⟩, h.holder, fun _ => rfl⟩,
    fun u hu => .append fun hr => absurd (Once.running.inj (hrun.symm.trans hr)).symm hu⟩
  · show s.nbCallsite = .ofNat (sites (s.log ++ [.startCounters nb])).length
    rw [sites_append, sites_other (e := .startCounters nb) rfl, sites_nil, List.append_nil]
    exact hg.nb
  · exact nomatch hn.symm.trans hrun
  · exact nomatch hd.symm.trans hrun

theorem fine_onceEnd (hg : Good s) (h : At s t .onceEnd) :
    Fine s { s.append .ready with once := .done } t .idle := by
  obtain ⟨hrun, hs⟩ := h.ok
  have happ := hg.append (e := .ready) hs ⟨rfl, nofun, nofun⟩
  refine ⟨⟨happ.log, happ.nb, nofun, fun _ => hs.mono (List.prefix_append _ _)⟩,
    .of_outside (fun hl => absurd (h.holder hl) (by decide)) nofun trivial, fun u hu => ?_⟩
  have hne : s.once ≠ .running u := fun hr => hu (Once.running.inj (hrun.symm.trans hr)).symm
  exact ⟨Iff.rfl, fun _ => rfl, iff_of_false nofun hne, fun hr => absurd hr hne, List.prefix_append _ _⟩

/-- **One step of one thread keeps what every thread knows.** -/
theorem advance_fine [DecidableEq T] {s' : Shared T} {p' : Pc} (hg : Good s) (h : At s t p)
    (hstep : advance s t p = some (s', p')) : Fine s s' t p' := by
  have hok := h.ok
  cases p with
  | idle => cases hstep
  | initLock =>
    obtain ⟨hfree, heq⟩ := Option.ite_none_right_eq_some.mp hstep
    cases heq
    exact fine_lock hg h rfl hfree rfl rfl
  | initRead => cases hstep; exact fine_read hg h rfl rfl ⟨hok, rfl⟩
  | initWrite nb => cases hstep; exact fine_numbered hg h
  | unlock => cases hstep; exact fine_unlock hg h
  | once =>
    simp only [advance] at hstep
    split at hstep
    · rename_i hnever
      cases hstep
      exact fine_onceBegin hg h hnever
    · cases hstep
    · rename_i hdone
      cases hstep
      exact fine_plain hg h rfl rfl (hg.done hdone) ⟨rfl, nofun, nofun⟩ trivial
  | onceRead =>
    cases hstep
    obtain ⟨before, after, hlog⟩ := List.append_of_mem hok.2.1
    refine fine_read hg h rfl rfl ⟨hok.1, ⟨before, after, _, hlog, ?_, Nat.le_refl _, hg.nb⟩, hok.2.2⟩
    rw [hlog, sites_append, List.length_append]
    exact Nat.le_add_right _ _
  | onceStart nb => cases hstep; exact fine_startCounters hg h
  | onceEnd => cases hstep; exact fine_onceEnd hg h
  | start c => cases hstep; exact fine_plain hg h rfl rfl hok ⟨rfl, nofun, nofun⟩ trivial
  | stop c => cases hstep; exact fine_plain hg h rfl rfl hok ⟨rfl, nofun, nofun⟩ trivial
  | resetStop c =>
    cases hstep
    exact fine_plain hg h rfl rfl hok ⟨rfl, nofun, nofun⟩ (sites_mono (List.prefix_append _ _) hok)
  | resetLock c =>
    obtain ⟨hfree, heq⟩ := Option.ite_none_right_eq_some.mp hstep
    cases heq
    exact fine_lock hg h rfl hfree rfl ⟨rfl, hok⟩
  | resetRead c => cases hstep; exact fine_read hg h rfl rfl ⟨hok.1, rfl, hok.2⟩
  | resetStart c nb =>
    cases hstep
    refine ⟨hg.append (e := .resetStart c nb) ⟨hok.2.2, hok.2.1.trans hg.nb⟩ ⟨rfl, nofun, nofun⟩,
      ⟨hok.1, fun _ => rfl, h.runner⟩, fun u _ => .append fun _ n hn => nomatch hn⟩

/-! ## All interleavings -/

theorem init_inv : (State.init T).Inv where
  good := ⟨chronicle_nil, rfl, fun _ => ⟨List.not_mem_nil, fun ⟨_, hn⟩ => absurd hn List.not_mem_nil⟩, nofun⟩
  pc _ := ⟨trivial, nofun, nofun⟩

variable [DecidableEq T]

theorem State.Inv.next {s s' : State T} {l : Label T} (h : s.Inv) (hn : next s l = some s') : s'.Inv := by
  cases l with
  | call t c =>
    obtain ⟨⟨hidle, hgiven⟩, heq⟩ := Option.ite_none_right_eq_some.mp hn
    cases heq
    refine ⟨h.good, fun u => ?_⟩
    by_cases hu : u = t
    · subst hu
      show At s.toShared u (Function.update s.pc u c.entry u)
      rw [Function.update_self]
      obtain ⟨hl, ho⟩ := (h.pc u).outside (by rw [hidle]; rfl) (by rw [hidle]; rfl)
      refine .of_outside hl ho ?_
      cases c with
      | init | initFini => trivial
      | start c | stop c | reset c => exact hgiven
    · show At s.toShared u (Function.update s.pc t c.entry u)
      rw [Function.update_of_ne hu]
      exact h.pc u
  | step t =>
    obtain ⟨⟨shared, p'⟩, hstep, heq⟩ := Option.map_eq_some_iff.mp hn
    subst heq
    have hf := advance_fine h.good (h.pc t) hstep
    refine ⟨hf.good, fun u => ?_⟩
    by_cases hu : u = t
    · subst hu
      show At shared u (Function.update s.pc u p' u)
      rw [Function.update_self]
      exact hf.self
    · show At shared u (Function.update s.pc t p' u)
      rw [Function.update_of_ne hu]
      exact (h.pc u).keeps (hf.others u hu)

theorem inv_of_reach {s : State T} (h : maqao.Reach Initially Lts.always s) : s.Inv :=
  h.invariant (fun _ h0 => h0 ▸ init_inv) fun _ _ _ hi _ hn => hi.next hn

/-- A thread inside a call can go on. -/
def Moves (s : State T) (t : T) : Prop := s.pc t ≠ .idle ∧ (next s (.step t)).isSome

/-- A thread in the lock or in the once function is never stopped. -/
theorem moves_inside {s : State T} {t : T} (h : (s.pc t).locked = true ∨ (s.pc t).inOnce = true) : Moves s t := by
  refine ⟨fun hidle => ?_, ?_⟩
  · rw [hidle] at h
    exact h.elim Bool.false_ne_true Bool.false_ne_true
  · show ((advance s.toShared t (s.pc t)).map _).isSome
    rw [Option.isSome_map]
    cases hp : s.pc t with
    | initRead | initWrite | unlock | resetRead | resetStart | onceRead | onceStart | onceEnd => rfl
    | idle | initLock | once | start | stop | resetStop | resetLock =>
      rw [hp] at h
      exact absurd h (not_or.mpr ⟨Bool.false_ne_true, Bool.false_ne_true⟩)

/-- Where a call waits, some thread that is in a call goes on. -/
theorem exists_moves {s : State T} (h : s.Inv) (hbusy : ∃ t, s.pc t ≠ .idle) : ∃ t, Moves s t := by
  obtain ⟨t, ht⟩ := hbusy
  cases hl : s.lock with
  | some u => exact ⟨u, moves_inside (Or.inl ((h.pc u).holder hl))⟩
  | none =>
    cases ho : s.once with
    | running u => exact ⟨u, moves_inside (Or.inr ((h.pc u).runner ho))⟩
    | never | done =>
      refine ⟨t, ht, ?_⟩
      unfold next
      cases hp : s.pc t <;> simp_all [advance]

/-- **In every interleaving of the calls on fewer than `2 ^ 32` sets** the sets have call sites of their own, the
counters start once and for the sets that were numbered by then, each reset starts the call site of the set that comes
next, and no thread is left waiting: while a thread is in a call, some thread can go on. -/
theorem callsites {s : State T} (h : maqao.Reach Initially Lts.always s) (hn : (sites s.log).length < 2 ^ 32) :
    Exact s.log ∧ ((∃ t, s.pc t ≠ .idle) → ∃ t, Moves s t) :=
  ⟨exact_of_allowed (inv_of_reach h).good.log hn, exists_moves (inv_of_reach h)⟩

end Inv

/-! ## A set without a counter -/

/-- The second set is numbered between the read of `nb_callsite` and the start of the counters. -/
def raceRun : List (Label Bool) :=
  [.call false .init, .step false, .step false, .step false, .step false, .call true .init, .call false .initFini,
    .step false, .step false, .step true, .step true, .step true, .step false, .step false, .step true,
    .call false (.start 0), .step false, .call false (.reset 0), .step false, .step false, .step false, .step false]

def raceState : State Bool := (maqao.exec (State.init Bool) raceRun).get rfl

theorem callsites_race : raceState.log = [.numbered 0, .onceBegin, .numbered 1, .startCounters 1, .ready,
    .startCounting 0, .stopCountingDumb 0, .resetStart 0 2] ∧ Exact raceState.log :=
  ⟨rfl, (callsites (.of_exec (.init rfl) (show maqao.exec (State.init Bool) raceRun = some raceState from rfl))
    (by decide)).1⟩

end Maqao
end Hmon
