import Hmon.Config.Plugins
import Hmon.Lib.Strtok

/-!
# The loaded plugins (`plugin.c`)

* `unsuffixPluginName`, `libraryPath` : the file of a plugin; `HmonPlugin`, `Registry` : the arrays of plugins;
* `hmonPluginLookup`, `hmonPluginLoad`, `pluginsInit` : the registry; `hmonStatPluginsLookupFunction` : its functions;
* `firsts` : the first items of each key in a list; `opens` : the plugins of the requests at whose time the library
  opens; `loadAll_of` : the registry after any requests;
* `plugins_requested` : **after the start and any loads the registry has the first of these for every name, in their
  order, and a lookup finds exactly them**;
* `function_first` : **a function is that of the first of them that has it, and later loads do not replace it**.

What `dlopen` answers depends on the time, which is the number of requests before: a library may be built meanwhile.
-/

namespace Hmon.Plugin
open Lib Config

/-! ## Files -/

def pluginSuffix : Text := "_hmon_plugin.so".toList

/-- `unsuffix_plugin_name` -/
def unsuffixPluginName (name : Text) : Text :=
  if name.length < pluginSuffix.length then name
  else if name.drop (name.length - pluginSuffix.length) = pluginSuffix then
    name.take (name.length - pluginSuffix.length)
  else name

/-- `snprintf(path, 256, "%s_hmon_plugin.so", prefix)` -/
def libraryPath (name : Text) : Text := (unsuffixPluginName name ++ pluginSuffix).take 255

theorem unsuffix_append (n : Text) : unsuffixPluginName (n ++ pluginSuffix) = n := by
  unfold unsuffixPluginName
  have hlen : (n ++ pluginSuffix).length - pluginSuffix.length = n.length := by rw [List.length_append]; omega
  rw [if_neg (by rw [List.length_append]; omega), hlen, List.drop_left, if_pos rfl, List.take_left]

theorem unsuffix_eq {n : Text} (h : ¬ pluginSuffix <:+ n) : unsuffixPluginName n = n := by
  unfold unsuffixPluginName
  split_ifs with hlen hdrop
  · rfl
  · exact absurd (hdrop ▸ List.drop_suffix _ n) h
  · rfl

/-- A name with the suffix and one without it open the same file. -/
theorem libraryPath_suffix {n : Text} (h : ¬ pluginSuffix <:+ n) : libraryPath (n ++ pluginSuffix) = libraryPath n := by
  unfold libraryPath
  rw [unsuffix_append, unsuffix_eq h]

/-! ## The registry -/

inductive PluginType
  | stat
  | perf
  deriving DecidableEq

/-- `struct hmon_plugin`, with a handle that `dlopen` returned. -/
structure HmonPlugin (H : Type) where
  id : Text
  dlhandle : H

/-- The arrays `stat_plugins` and `perf_plugins`. -/
structure Registry (H : Type) where
  stat : List (HmonPlugin H)
  perf : List (HmonPlugin H)

variable {H F : Type}

def Registry.of (r : Registry H) : PluginType → List (HmonPlugin H)
  | .stat => r.stat
  | .perf => r.perf

def Registry.push (r : Registry H) (t : PluginType) (p : HmonPlugin H) : Registry H :=
  match t with
  | .stat => { r with stat := r.stat ++ [p] }
  | .perf => { r with perf := r.perf ++ [p] }

def Registry.empty : Registry H := ⟨[], []⟩

/-- `hmon_plugin_lookup` -/
def hmonPluginLookup (r : Registry H) (t : PluginType) (name : Text) : Option (HmonPlugin H) :=
  (r.of t).find? fun p => p.id = name

/-- `hmon_stat_plugins_lookup_function` -/
def hmonStatPluginsLookupFunction (dlsym : H → Text → Option F) (r : Registry H) (name : Text) : Option F :=
  r.stat.findSome? fun p => dlsym p.dlhandle name

/-- `hmon_plugin_load` -/
def hmonPluginLoad (dlopen : Text → Option H) (r : Registry H) (t : PluginType) (name : Text) :
    Registry H × Option (HmonPlugin H) :=
  match hmonPluginLookup r t name with
  | some p => (r, some p)
  | none =>
    match dlopen (libraryPath name) with
    | some h => (r.push t ⟨name, h⟩, some ⟨name, h⟩)
    | none => (r, none)

section Load
variable (dlopen : Nat → Text → Option H)

/-- Loads one after the other, the first of them at time `n`. -/
def loadAll : Nat → Registry H → List (PluginType × Text) → Registry H
  | _, r, [] => r
  | n, r, q :: requests => loadAll (n + 1) (hmonPluginLoad (dlopen n) r q.1 q.2).1 requests

/-- The names that `strtok` finds in a text. -/
def words (s : Text) : List Text := strtok (· == ' ') s

/-- The requests of a variable of the environment, if it is set, and of the names that were compiled in. -/
def typeRequests (env : Option Text) (defaults : Text) (t : PluginType) : List (PluginType × Text) :=
  (env.elim [] words ++ words defaults).map fun w => (t, w)

/-- The requests of the start. -/
def startRequests (env : PluginType → Option Text) (defaults : PluginType → Text) : List (PluginType × Text) :=
  typeRequests (env .stat) (defaults .stat) .stat ++ typeRequests (env .perf) (defaults .perf) .perf

/-- `plugins_init`, with the `STAT_PLUGINS` and the `PERF_PLUGINS` of `config.h`. The loops over these names start with
the first of them, which is NULL if there is none: then the start fails. -/
def pluginsInit (env : PluginType → Option Text) (defaults : PluginType → Text) : Option (Registry H) :=
  if words (defaults .stat) = [] ∨ words (defaults .perf) = [] then none
  else some (loadAll dlopen 0 .empty (startRequests env defaults))

end Load

/-- The `STAT_PLUGINS` and `PERF_PLUGINS` of `plugin.c`, where `config.h` has none. -/
def compiledIn : PluginType → Text
  | .stat => "defstats".toList
  | .perf => "proc accumulate hierarchical".toList

/-! ## First items -/

section Firsts
variable {α κ : Type} [DecidableEq κ]

/-- The first item of every key. -/
def firsts (key : α → κ) : List α → List α
  | [] => []
  | a :: as => a :: (firsts key as).filter (key · ≠ key a)

theorem firsts_nodup (key : α → κ) (as : List α) : ((firsts key as).map key).Nodup := by
  induction as with
  | nil => exact List.nodup_nil
  | cons a as ih =>
    refine List.nodup_cons.mpr ⟨fun h => ?_, ih.sublist (List.filter_sublist.map key)⟩
    obtain ⟨b, hb, he⟩ := List.mem_map.mp h
    exact absurd he (by simpa using (List.mem_filter.mp hb).2)

theorem find_firsts (key : α → κ) (k : κ) (as : List α) :
    (firsts key as).find? (fun a => key a = k) = as.find? fun a => key a = k := by
  induction as with
  | nil => rfl
  | cons a as ih =>
    rw [firsts, List.find?_cons, List.find?_cons]
    by_cases hk : key a = k
    · simp [hk]
    · simp only [hk, decide_false, List.find?_filter]
      rw [← ih]
      congr 1
      funext b
      by_cases hb : key b = k
      · simp [hb, Ne.symm hk]
      · simp [hb]

end Firsts

/-! ## Loads -/

section Loads
variable {dlopen : Nat → Text → Option H} {r : Registry H} {t : PluginType} {n : Nat}

/-- The plugin of a name whose library opens. -/
def opened (dlopen : Text → Option H) (name : Text) : Option (HmonPlugin H) :=
  (dlopen (libraryPath name)).map fun h => ⟨name, h⟩

/-- The plugins of one type of the requests at whose time the library opens. -/
def opens (dlopen : Nat → Text → Option H) (t : PluginType) : Nat → List (PluginType × Text) → List (HmonPlugin H)
  | _, [] => []
  | n, q :: requests => (if q.1 = t then (opened (dlopen n) q.2).toList else []) ++ opens dlopen t (n + 1) requests

theorem of_push (r : Registry H) (t t' : PluginType) (p : HmonPlugin H) :
    (r.push t p).of t' = if t' = t then r.of t' ++ [p] else r.of t' := by
  cases t <;> cases t' <;> rfl

theorem lookup_none {name : Text} : hmonPluginLookup r t name = none ↔ name ∉ (r.of t).map HmonPlugin.id := by
  unfold hmonPluginLookup
  rw [List.find?_eq_none]
  simp

/-- A load of a name that is not there adds its plugin, if its library opens. -/
theorem load_of (dlopen : Text → Option H) (r : Registry H) (t t' : PluginType) (name : Text) :
    ((hmonPluginLoad dlopen r t name).1).of t' =
      r.of t' ++ if t' = t ∧ name ∉ (r.of t).map HmonPlugin.id then (opened dlopen name).toList else [] := by
  unfold hmonPluginLoad opened
  cases hl : hmonPluginLookup r t name with
  | some p =>
    have hmem : ¬ name ∉ (r.of t).map HmonPlugin.id := fun h => by
      rw [lookup_none.mpr h] at hl
      cases hl
    rw [if_neg fun h => hmem h.2, List.append_nil]
  | none =>
    have hmem := lookup_none.mp hl
    cases ho : dlopen (libraryPath name) with
    | none => simp [hmem]
    | some h =>
      simp only [of_push, Option.map_some, Option.toList_some]
      by_cases ht : t' = t
      · rw [if_pos ht, if_pos ⟨ht, hmem⟩]
      · rw [if_neg ht, if_neg fun h => ht h.1, List.append_nil]

theorem opened_id {dlopen : Text → Option H} {name : Text} {p : HmonPlugin H} (h : opened dlopen name = some p) :
    p.id = name := by
  obtain ⟨h, -, rfl⟩ := Option.map_eq_some_iff.mp h
  rfl

/-- **The registry after any requests**: what was there, then the first plugin of every new name among those whose
libraries open. -/
theorem loadAll_of (n : Nat) (r : Registry H) (requests : List (PluginType × Text)) (t : PluginType) :
    (loadAll dlopen n r requests).of t = r.of t ++
      (firsts HmonPlugin.id (opens dlopen t n requests)).filter (·.id ∉ (r.of t).map HmonPlugin.id) := by
  induction requests generalizing n r with
  | nil => exact (List.append_nil _).symm
  | cons q requests ih =>
    obtain ⟨t', name⟩ := q
    rw [loadAll, ih, load_of, opens]
    by_cases ht : t' = t
    · subst ht
      simp only [true_and, if_true]
      cases ho : opened (dlopen n) name with
      | none => simp
      | some p =>
        have hid : p.id = name := opened_id ho
        rw [Option.toList_some, List.singleton_append, firsts, List.filter_cons, hid]
        by_cases hmem : name ∈ (r.of t').map HmonPlugin.id
        · -- the name is there already: neither this plugin nor a later one of the name counts
          rw [if_neg (not_not.mpr hmem), List.append_nil, if_neg (by simpa using hmem), List.filter_filter]
          congr 1
          refine List.filter_congr fun b _ => ?_
          by_cases hb : b.id = name
          · simp only [hb, hmem, not_true_eq_false, decide_false, Bool.false_and]
          · simp only [hb, ne_eq, not_false_eq_true, decide_true, Bool.and_true]
        · rw [if_pos hmem, if_pos (by simpa using hmem), List.append_assoc, List.filter_filter]
          rw [List.singleton_append]
          congr 2
          refine List.filter_congr fun b _ => ?_
          simp [hid]
    · rw [if_neg fun h => ht h.1.symm, if_neg ht, List.append_nil, List.nil_append]

theorem loadAll_append (n : Nat) (r : Registry H) (qs qs' : List (PluginType × Text)) :
    loadAll dlopen n r (qs ++ qs') = loadAll dlopen (n + qs.length) (loadAll dlopen n r qs) qs' := by
  induction qs generalizing n r with
  | nil => rfl
  | cons q qs ih =>
    rw [List.cons_append, loadAll, loadAll, ih, List.length_cons, Nat.add_assoc, Nat.add_comm 1]

/-! ## After the start -/

/-- The registry after the start and further requests. -/
def after (dlopen : Nat → Text → Option H) (env : PluginType → Option Text) (defaults : PluginType → Text)
    (later : List (PluginType × Text)) : Option (Registry H) :=
  (pluginsInit dlopen env defaults).map fun r => loadAll dlopen (startRequests env defaults).length r later

variable {env : PluginType → Option Text} {defaults : PluginType → Text} {later : List (PluginType × Text)}

theorem after_eq (h : after dlopen env defaults later = some r) :
    r = loadAll dlopen 0 .empty (startRequests env defaults ++ later) := by
  obtain ⟨r₀, h₀, rfl⟩ := Option.map_eq_some_iff.mp h
  unfold pluginsInit at h₀
  split_ifs at h₀
  cases h₀
  rw [loadAll_append, Nat.zero_add]

/-- The requests and the answers are all that counts. -/
theorem after_of (h : after dlopen env defaults later = some r) (t : PluginType) :
    r.of t = firsts HmonPlugin.id (opens dlopen t 0 (startRequests env defaults ++ later)) := by
  have hempty : (Registry.empty : Registry H).of t = [] := by cases t <;> rfl
  rw [after_eq h, loadAll_of, hempty, List.nil_append]
  exact List.filter_eq_self.mpr fun _ _ => by simp

/-- **The start succeeds exactly when plugins of both types were compiled in. After it and any further loads a type has,
for every name, the plugin of the first request at whose time the library opened, in the order of these requests; no
name twice, and a lookup finds exactly these.** -/
theorem plugins_requested (dlopen : Nat → Text → Option H) (env : PluginType → Option Text)
    (defaults : PluginType → Text) (later : List (PluginType × Text)) :
    ((after dlopen env defaults later).isSome ↔ ∀ t, words (defaults t) ≠ []) ∧
    ∀ r, after dlopen env defaults later = some r → ∀ t,
      r.of t = firsts HmonPlugin.id (opens dlopen t 0 (startRequests env defaults ++ later)) ∧
      ((r.of t).map HmonPlugin.id).Nodup ∧ ∀ name, hmonPluginLookup r t name =
        (opens dlopen t 0 (startRequests env defaults ++ later)).find? fun p => p.id = name := by
  refine ⟨?_, fun r h t => ?_⟩
  · unfold after pluginsInit
    have htypes : (∀ t, words (defaults t) ≠ []) ↔ words (defaults .stat) ≠ [] ∧ words (defaults .perf) ≠ [] :=
      ⟨fun h => ⟨h _, h _⟩, fun h t => by cases t <;> simp [h]⟩
    rw [htypes, Option.isSome_map]
    split_ifs with hnone
    · exact iff_of_false Bool.false_ne_true fun h => hnone.elim h.1 h.2
    · rw [not_or] at hnone
      exact iff_of_true rfl hnone
  · have hof := after_of h t
    refine ⟨hof, ?_, fun name => ?_⟩
    · rw [hof]
      exact firsts_nodup _ _
    · unfold hmonPluginLookup
      rw [hof]
      exact find_firsts HmonPlugin.id name _

/-- **A function is that of the first plugin that has it, in the order in which the libraries first opened at a request:
those of the start go before those of later requests, and what is found once is found after any further loads.** -/
theorem function_first (dlsym : H → Text → Option F) (h : after dlopen env defaults later = some r) (name : Text) :
    hmonStatPluginsLookupFunction dlsym r name =
      (firsts HmonPlugin.id (opens dlopen .stat 0 (startRequests env defaults ++ later))).findSome?
        (fun p => dlsym p.dlhandle name) ∧
    ∀ f, hmonStatPluginsLookupFunction dlsym r name = some f → ∀ n more,
      hmonStatPluginsLookupFunction dlsym (loadAll dlopen n r more) name = some f := by
  have hstat : ∀ r : Registry H, r.stat = r.of .stat := fun _ => rfl
  unfold hmonStatPluginsLookupFunction
  refine ⟨?_, fun f hf n more => ?_⟩
  · rw [hstat, after_of h]
  · rw [hstat, loadAll_of, List.findSome?_append, ← hstat, hf]
    rfl

/-- `defstats` and, from the fifth request on, the library `m`, which is built meanwhile. -/
def builtLater (n : Nat) (path : Text) : Option Nat :=
  if path = "defstats_hmon_plugin.so".toList then some 0
  else if path = "m_hmon_plugin.so".toList ∧ 5 ≤ n then some 1 else none

/-- The name `m` is asked for in the environment, where it fails, and again after its library is built: it is found
behind `defstats`, so that the common function is that of `defstats`. -/
theorem plugins_built : ∃ r, after builtLater (fun t => if t = .stat then some "m".toList else none) compiledIn
    [(.stat, "m".toList)] = some r ∧ (r.of .stat).map HmonPlugin.id = ["defstats".toList, "m".toList] ∧
      hmonPluginLookup r .stat "m".toList = some ⟨"m".toList, 1⟩ := by
  obtain ⟨hsome, hall⟩ := plugins_requested builtLater (fun t => if t = .stat then some "m".toList else none) compiledIn
    [(.stat, "m".toList)]
  obtain ⟨r, hr⟩ := Option.isSome_iff_exists.mp (hsome.mpr fun t => by cases t <;> decide)
  obtain ⟨hof, -, hlookup⟩ := hall r hr .stat
  exact ⟨r, hr, by rw [hof]; rfl, by rw [hlookup]; rfl⟩

theorem function_built : ∃ r, after builtLater (fun t => if t = .stat then some "m".toList else none) compiledIn
    [(.stat, "m".toList)] = some r ∧
      hmonStatPluginsLookupFunction (fun h _ => some h) r "hmonitor_events_max".toList = some 0 := by
  obtain ⟨r, hr⟩ := Option.isSome_iff_exists.mp (show (after builtLater
    (fun t => if t = .stat then some "m".toList else none) compiledIn [(.stat, "m".toList)]).isSome from rfl)
  exact ⟨r, hr, (function_first (fun h _ => some h) hr "hmonitor_events_max".toList).1.trans rfl⟩

end Loads
end Hmon.Plugin
