import Hmon.Lib.Lts
import Hmon.Registry

/-!
# What `hmon_restrict` removes

`hmon_restrict` first intersects `allowed_cpuset` with the domain and then takes the new `allowed_cpuset` away
from the domain, to get the set to remove. By then `allowed_cpuset` is the domain: the set is empty and no
monitor is unregistered.

* `regSys` : sequences of registrations and restrictions;
* `hmonRestrict_included` : a restriction to an allowed domain changes `allowed_cpuset` only;
* `RestrictExact` : what the restriction is for; `Harmless` : nothing registered leaves the domain;
* `restrict_exact_iff` : **a restriction is exact exactly when it is harmless**, and the registered monitors stay
  inside `allowed_cpuset` as long as all restrictions are.
-/

namespace Hmon
open Lib

inductive RegLabel (M : Type)
  | register (m : M) (display : Nat)
  | restrict (domain : Cpuset)

variable {V M : Type}

section System
variable [DecidableEq M]

def regNext (L : Registry V M) : RegLabel M → Option (Registry V M)
  | .register m display => (hmonRegisterHmonitor L m display).toOption.map Prod.snd
  | .restrict domain => (hmonRestrict L domain).toOption.map Prod.fst

/-- Registrations and restrictions, in any order. -/
def regSys : Lts (Registry V M) (RegLabel M) := ⟨regNext⟩

end System

/-- The library after `hmon_lib_init`, with any monitors allocated. -/
def Empty (L : Registry V M) : Prop := ∃ topo mon, L = Registry.init topo mon

/-- Every registered monitor is inside `allowed_cpuset`. -/
def AllInside (L : Registry V M) : Prop := ∀ m ∈ L.registered, (L.mon m).location.cpuset ⊆ L.allowed

/-- No registered monitor leaves the domain. -/
def Keeps (L : Registry V M) (domain : Cpuset) : Prop :=
  domain ⊆ L.allowed → ∀ m ∈ L.registered, (L.mon m).location.cpuset ⊆ domain

def Harmless (L : Registry V M) : RegLabel M → Prop
  | .register _ _ => True
  | .restrict domain => Keeps L domain

/-- The monitors of `ms` whose object lies inside the domain. -/
def insideOf (L : Registry V M) (domain : Cpuset) (ms : List M) : List M :=
  ms.filter fun m => (L.mon m).location.cpuset ⊆ domain

/-- A restriction sets `allowed_cpuset` to the domain and keeps exactly the monitors inside it, in both kinds of
arrays; a domain that is not allowed changes nothing. -/
def RestrictExact (L : Registry V M) (domain : Cpuset) : Prop :=
  if domain ⊆ L.allowed then
    ∃ L' domain', hmonRestrict L domain = .ok (L', domain') ∧ L'.allowed = domain ∧
      L'.registered = insideOf L domain L.registered ∧
      ∀ o, L'.objMonitors o = insideOf L domain (L.objMonitors o)
  else hmonRestrict L domain = .ok (L, domain)

/-! ## Nothing is unregistered -/

theorem restrictDepths_empty (L : Registry V M) (ds : List Nat) : restrictDepths ∅ ds L = .ok L := by
  induction ds with
  | nil => rfl
  | cons d ds ih =>
    rw [restrictDepths, Topo.nbobjsInsideCpuset_empty, restrictDepth]
    exact ih

/-- A restriction to an allowed domain changes `allowed_cpuset` and nothing else. -/
theorem hmonRestrict_included {L : Registry V M} {domain : Cpuset} (h : domain ⊆ L.allowed) :
    hmonRestrict L domain = .ok ({ L with allowed := domain }, ∅) := by
  have hand : L.allowed ∩ domain = domain := Finset.inter_eq_right.mpr h
  unfold hmonRestrict
  rw [if_neg (not_not_intro h)]
  simp only [hand, sdiff_self, Finset.bot_eq_empty]
  rw [restrictDepths_empty]
  rfl

theorem hmonRestrict_forbidden {L : Registry V M} {domain : Cpuset} (h : ¬ domain ⊆ L.allowed) :
    hmonRestrict L domain = .ok (L, domain) := by
  unfold hmonRestrict
  rw [if_pos h]

/-- A restriction is exact when no registered monitor leaves the domain, and not otherwise. -/
theorem restrictExact_iff_keeps {L : Registry V M} (hs : L.Sound) (domain : Cpuset) :
    RestrictExact L domain ↔ Keeps L domain := by
  unfold RestrictExact Keeps
  by_cases hd : domain ⊆ L.allowed
  · rw [if_pos hd]
    constructor
    · rintro ⟨L', domain', hr, -, hreg, -⟩ - m hm
      rw [hmonRestrict_included hd] at hr
      cases hr
      have hmem : m ∈ insideOf L domain L.registered := hreg ▸ hm
      simpa using List.of_mem_filter hmem
    · intro h
      refine ⟨_, _, hmonRestrict_included hd, rfl, ?_, fun o => ?_⟩
      · exact (List.filter_eq_self.mpr fun m hm => by simpa using h hd m hm).symm
      · refine (List.filter_eq_self.mpr fun m hm => ?_).symm
        simpa using h hd m ((hs.mem o m).mp hm).1
  · rw [if_neg hd]
    exact iff_of_true (hmonRestrict_forbidden hd) fun h => absurd h hd

/-! ## Invariants of the registry -/

section Runs
variable [DecidableEq M] {L L' : Registry V M}

/-- A registration or restriction, case by case. -/
theorem regNext_cases {l : RegLabel M} (hs : L.Sound) (hn : regNext L l = some L') :
    L' = L ∨ (∃ m display, l = .register m display ∧ Registers L m L') ∨
      ∃ domain, l = .restrict domain ∧ domain ⊆ L.allowed ∧ L' = { L with allowed := domain } := by
  cases l with
  | register m display =>
    simp only [regNext] at hn
    cases hr : hmonRegisterHmonitor L m display with
    | error f => rw [hr] at hn; cases hn
    | ok res =>
      obtain ⟨r, L₁⟩ := res
      rw [hr] at hn
      cases hn
      rcases register_cases hs hr with ⟨-, rfl⟩ | ⟨-, hreg⟩
      · exact Or.inl rfl
      · exact Or.inr (Or.inl ⟨m, display, rfl, hreg⟩)
  | restrict domain =>
    simp only [regNext] at hn
    by_cases hd : domain ⊆ L.allowed
    · rw [hmonRestrict_included hd] at hn
      cases hn
      exact Or.inr (Or.inr ⟨domain, rfl, hd, rfl⟩)
    · rw [hmonRestrict_forbidden hd] at hn
      cases hn
      exact Or.inl rfl

theorem regSys_sound {ok : Registry V M → RegLabel M → Prop} (h : regSys.Reach Empty ok L) : L.Sound := by
  refine h.invariant ?_ ?_
  · rintro L ⟨topo, mon, rfl⟩
    exact Registry.init_sound topo mon
  · intro L l L' hs _ hn
    rcases regNext_cases hs hn with rfl | ⟨m, display, -, hreg⟩ | ⟨domain, -, -, rfl⟩
    · exact hs
    · exact hreg.sound hs
    · exact ⟨hs.fits, hs.fitsAt, hs.mem⟩

/-- One registration or harmless restriction keeps every registered monitor inside `allowed_cpuset`. -/
theorem AllInside.step {l : RegLabel M} (hs : L.Sound) (hi : AllInside L) (hok : Harmless L l)
    (hn : regNext L l = some L') : AllInside L' := by
  rcases regNext_cases hs hn with rfl | ⟨m, display, -, hreg⟩ | ⟨domain, rfl, hd, rfl⟩
  · exact hi
  · obtain ⟨display, owner, hmon⟩ := hreg.mon
    have hloc : ∀ x, (L'.mon x).location = (L.mon x).location := by
      rw [hmon]
      exact L.setMon_mon_location (m := m) (h := { L.mon m with display := display, owner := owner }) rfl
    intro x hx
    rw [hloc, hreg.allowed]
    rcases List.mem_cons.mp (hreg.registered.mem_iff.mp hx) with rfl | hx
    · exact hreg.inside
    · exact hi x hx
  · exact hok hd

theorem allInside_of_harmless (h : regSys.Reach Empty Harmless L) : AllInside L :=
  Lts.Reach.invariant_of (J := Registry.Sound) (fun _ => regSys_sound)
    (by rintro L ⟨topo, mon, rfl⟩ m hm; simp [Registry.init, Registry.registered] at hm)
    (fun _ _ _ hs hi hok hn => AllInside.step hs hi hok hn) h

/-- **A restriction keeps exactly the monitors inside its domain if and only if no registered monitor leaves the
domain**, in every reachable registry; as long as all restrictions are of this kind, every registered monitor is
inside `allowed_cpuset`. -/
theorem restrict_exact_iff (h : regSys.Reach Empty Lts.always L) :
    (∀ domain, RestrictExact L domain ↔ Keeps L domain) ∧ (regSys.Reach Empty Harmless L → AllInside L) :=
  ⟨restrictExact_iff_keeps (regSys_sound h), allInside_of_harmless⟩

end Runs

/-! ## A monitor that stays behind -/

/-- One monitor on each core. -/
def coreMonitors (i : ℕ) : Hmonitor Thread ℚ ℕ :=
  (newHmonitor .main 0 (fakeSpec [] (Topo.coreObj i) fun _ => 0)).get rfl

def restrictDemo : Registry ℚ ℕ := Registry.init Topo.twoCores coreMonitors

/-- The monitor of core 0 registered. -/
def restrictCore : Registry ℚ ℕ := (regSys.exec restrictDemo [.register 0 0]).get rfl

theorem restrictCore_reach : regSys.Reach Empty Lts.always restrictCore :=
  .of_exec (.init ⟨_, _, rfl⟩) (show regSys.exec restrictDemo [.register 0 0] = some restrictCore from rfl)

theorem restrict_exact_core : restrictCore.registered = [0] ∧ RestrictExact restrictCore {0} :=
  ⟨by decide, ((restrict_exact_iff restrictCore_reach).1 {0}).mpr fun _ => by decide⟩

/-- The monitor of core 1 is still registered after a restriction to core 0. -/
theorem restrict_keeps_outside :
    ∃ L : Registry ℚ ℕ, regSys.Reach Empty Lts.always L ∧ ({0} : Cpuset) ⊆ L.allowed ∧ ¬ RestrictExact L {0} := by
  have hr : regSys.Reach Empty Lts.always _ := .of_exec (.init ⟨_, _, rfl⟩)
    (show regSys.exec restrictDemo [.register 1 0] = some _ from rfl)
  refine ⟨_, hr, by decide, fun h => ?_⟩
  have hk := (restrictExact_iff_keeps (regSys_sound hr) {0}).mp h (by decide) 1 (by decide)
  exact absurd hk (by decide)

end Hmon
