import Hmon.Harray.Sorted
import Hmon.Register

/-!
# Unregistering the monitors of an object (`hmonitor_unregister_location`)

* `hmonCompare_comparison` : the comparison of monitors is one of a total preorder; `hmonCompare_orders` :
  **what sorting and searching rely on**;
* `Findable`, at the insertion into the array of all monitors, keeps this array sorted along a run: `Ordered`;
* `unregisterFrom_spec` : in a sorted array every search of the loop finds a monitor of the object;
* `unregister_exact` : **after registrations that keep the array sorted, unregistering an object removes exactly its
  monitors**; `unregister_misses` : otherwise a monitor can stay behind.
-/

namespace Hmon
open Lib

variable {V M : Type}

/-! ## The comparison -/

theorem strcmp_swap : ∀ s t : CString, 0 < strcmp s t ↔ strcmp t s < 0
  | [], [] => by simp [strcmp]
  | [], _ :: _ => by simp [strcmp]
  | _ :: _, [] => by simp [strcmp]
  | a :: as, b :: bs => by
    unfold strcmp
    have hasymm : a < b → ¬ b < a := UInt8.lt_asymm
    split_ifs with h₁ h₂
    · exact absurd h₂ (hasymm h₁)
    · simp
    · simp
    · exact strcmp_swap as bs

theorem strcmp_cons_le {a b : UInt8} {as bs : CString} :
    strcmp (a :: as) (b :: bs) ≤ 0 ↔ a < b ∨ a = b ∧ strcmp as bs ≤ 0 := by
  rw [strcmp]
  split_ifs with h₁ h₂
  · simp [h₁]
  · simp [h₁, (UInt8.ne_of_lt h₂).symm]
  · have hab : a = b := UInt8.le_antisymm (UInt8.not_lt.mp h₂) (UInt8.not_lt.mp h₁)
    simp [hab]

theorem strcmp_trans : ∀ r s t : CString, strcmp r s ≤ 0 → strcmp s t ≤ 0 → strcmp r t ≤ 0
  | [], _, [] => by simp [strcmp]
  | [], _, _ :: _ => by simp [strcmp]
  | _ :: _, [], _ => by simp [strcmp]
  | _ :: _, _ :: _, [] => by simp [strcmp]
  | a :: as, b :: bs, c :: cs => by
    rw [strcmp_cons_le, strcmp_cons_le, strcmp_cons_le]
    rintro (hab | ⟨rfl, hab⟩) (hbc | ⟨rfl, hbc⟩)
    · exact .inl (UInt8.lt_trans hab hbc)
    · exact .inl hab
    · exact .inl hbc
    · exact .inr ⟨rfl, strcmp_trans as bs cs hab hbc⟩

theorem strcmp_comparison : Comparison strcmp := ⟨strcmp_swap, strcmp_trans⟩

theorem hmonCompare_comparison (mon : M → Hmonitor Thread V M) : Comparison (hmonCompare mon) := by
  have hid := strcmp_comparison.on fun m => (mon m).id
  have houtput := hid.first (fun x y => (mon x).output.isSome ∧ ¬ (mon y).output.isSome)
    (fun x y h h' => h.2 h'.1) (fun x y z h => by by_cases hy : (mon y).output.isSome <;> simp [hy, h])
  have hdisplay := houtput.first (fun x y => (mon x).display ≠ 0 ∧ (mon y).display = 0)
    (fun x y h h' => h.1 h'.2) (fun x y z h => by by_cases hy : (mon y).display = 0 <;> simp [hy, h])
  have hindex := hdisplay.first (fun x y => (mon x).location.logicalIndex < (mon y).location.logicalIndex)
    (fun x y h h' => by omega) (fun x y z h => by omega)
  have hdepth := hindex.first (fun x y => (mon y).location.depth < (mon x).location.depth)
    (fun x y h h' => by omega) (fun x y z h => by omega)
  refine Eq.mp (congrArg Comparison (funext fun x => funext fun y => ?_)) hdepth
  simp only [hmonCompare, and_comm]

/-- The objects of a depth have distinct logical indices, as in hwloc. -/
def Located (mon : M → Hmonitor Thread V M) : Prop :=
  ∀ x y, (mon x).location.depth = (mon y).location.depth →
    (mon x).location.logicalIndex = (mon y).location.logicalIndex → (mon x).location = (mon y).location

theorem ite_eq_zero {p : Prop} [Decidable p] {a b : Int} (ha : a ≠ 0) : (if p then a else b) = 0 ↔ ¬ p ∧ b = 0 := by
  split_ifs with hp
  · exact iff_of_false ha fun h => h.1 hp
  · exact (and_iff_right hp).symm

/-- Monitors are tied when they agree on the five keys. -/
theorem hmonCompare_eq_zero {mon : M → Hmonitor Thread V M} {x y : M} : hmonCompare mon x y = 0 ↔
    (mon x).location.depth = (mon y).location.depth ∧
      (mon x).location.logicalIndex = (mon y).location.logicalIndex ∧
      ((mon x).display ≠ 0 ↔ (mon y).display ≠ 0) ∧ ((mon x).output.isSome ↔ (mon y).output.isSome) ∧
      (mon x).id = (mon y).id := by
  unfold hmonCompare
  simp only [ite_eq_zero (show (-1 : Int) ≠ 0 by decide), ite_eq_zero (show (1 : Int) ≠ 0 by decide), strcmp_eq_zero]
  constructor
  · rintro ⟨hdepth, hdepth', hindex, hindex', hdisplay, hdisplay', houtput, houtput', hid⟩
    exact ⟨by omega, by omega, by omega, by tauto, hid⟩
  · rintro ⟨hdepth, hindex, hdisplay, houtput, hid⟩
    exact ⟨by omega, by omega, by omega, by omega, by omega, by omega, by tauto, by tauto, hid⟩

/-- Tied monitors are on the same object. -/
theorem tie_location {mon : M → Hmonitor Thread V M} (hl : Located mon) {x y : M} (h : hmonCompare mon x y = 0) :
    (mon x).location = (mon y).location := by
  obtain ⟨hdepth, hindex, -⟩ := hmonCompare_eq_zero.mp h
  exact hl x y hdepth hindex

/-- **The comparison is one that sorting and searching can rely on: antisymmetric in its sign, transitive, zero exactly
when the five keys agree, and deeper monitors come first.** -/
theorem hmonCompare_orders (mon : M → Hmonitor Thread V M) :
    (∀ a b, (hmonCompare mon b a).sign = -(hmonCompare mon a b).sign) ∧
    (∀ a b c, hmonCompare mon a b ≤ 0 → hmonCompare mon b c ≤ 0 → hmonCompare mon a c ≤ 0) ∧
    (∀ a b, hmonCompare mon a b = 0 ↔ (mon a).location.depth = (mon b).location.depth ∧
      (mon a).location.logicalIndex = (mon b).location.logicalIndex ∧
      ((mon a).display ≠ 0 ↔ (mon b).display ≠ 0) ∧ ((mon a).output.isSome ↔ (mon b).output.isSome) ∧
      (mon a).id = (mon b).id) ∧
    ∀ a b, (mon b).location.depth < (mon a).location.depth → hmonCompare mon a b < 0 := by
  have hc := hmonCompare_comparison mon
  refine ⟨fun a b => hc.sign_swap a b, hc.trans, fun a b => hmonCompare_eq_zero, fun a b hdepth => ?_⟩
  unfold hmonCompare
  simp only [if_pos hdepth]
  decide

/-! ## The loop over the array of the object -/

section Loop
variable {mon : M → Hmonitor Thread V M} {o : Obj} {xs ms : List M}

/-- For every monitor of the object there are as many tied with it in both lists. -/
def Balanced (mon : M → Hmonitor Thread V M) (o : Obj) (xs ms : List M) : Prop :=
  ∀ x, (mon x).location = o →
    xs.countP (fun y => hmonCompare mon x y = 0) = ms.countP (fun y => hmonCompare mon x y = 0)

/-- The monitors that are not on the object. -/
def elsewhere (mon : M → Hmonitor Thread V M) (o : Obj) (xs : List M) : List M :=
  xs.filter fun x => (mon x).location ≠ o

/-- Lists that agree on the object are balanced. -/
theorem balanced_of_perm (hl : Located mon) (h : ms.Perm (xs.filter fun x => (mon x).location = o)) :
    Balanced mon o xs ms := by
  intro x hx
  rw [h.countP_eq, List.countP_filter]
  refine List.countP_congr fun y _ => ?_
  rw [Bool.and_eq_true, decide_eq_true_eq, decide_eq_true_eq]
  exact (and_iff_left_of_imp fun htie => hx ▸ (tie_location hl htie).symm).symm

theorem elsewhere_of_balanced (h : Balanced mon o xs []) : elsewhere mon o xs = xs := by
  refine List.filter_eq_self.mpr fun x hx => decide_eq_true fun hxo => ?_
  have hzero := h x hxo
  rw [List.countP_nil, List.countP_eq_zero] at hzero
  exact hzero x hx (decide_eq_true ((hmonCompare_comparison mon).refl x))

/-- Removing a monitor that is tied with `m` from one list and `m` from the other. -/
theorem Balanced.erase {m : M} {i : Nat} (h : Balanced mon o xs (m :: ms)) (hi : i < xs.length)
    (htie : hmonCompare mon m xs[i] = 0) : Balanced mon o (xs.eraseIdx i) ms := by
  have hc := hmonCompare_comparison mon
  intro x hx
  have hcount := h x hx
  rw [← (List.getElem_cons_eraseIdx_perm hi).countP_eq, List.countP_cons, List.countP_cons] at hcount
  have hsame : hmonCompare mon x xs[i] = 0 ↔ hmonCompare mon x m = 0 :=
    ⟨fun h => hc.tie_trans h (hc.tie_symm htie), fun h => hc.tie_trans h htie⟩
  simp only [decide_eq_true_eq, hsame] at hcount
  exact Nat.add_right_cancel hcount

theorem elsewhere_erase {i : Nat} (hi : i < xs.length) (hon : (mon xs[i]).location = o) :
    elsewhere mon o (xs.eraseIdx i) = elsewhere mon o xs := by
  unfold elsewhere
  calc (xs.eraseIdx i).filter (fun x => (mon x).location ≠ o)
      = (xs.take i).filter (fun x => (mon x).location ≠ o) ++
        (xs.drop (i + 1)).filter fun x => (mon x).location ≠ o := by
        rw [List.eraseIdx_eq_take_drop_succ, List.filter_append]
    _ = (xs.take i ++ xs[i] :: xs.drop (i + 1)).filter fun x => (mon x).location ≠ o := by
        rw [List.filter_append, List.filter_cons, if_neg (by simpa using hon)]
    _ = xs.filter fun x => (mon x).location ≠ o := by rw [← List.drop_eq_getElem_cons hi, List.take_append_drop]

/-- **The loop removes the monitors of the object**, whatever the order of its array: every search finds one of them. -/
theorem unregisterFrom_spec (hl : Located mon) {array a : Harray M} {is : List Nat}
    (his : List.Forall₂ (fun i m => harrayGet array i = some m) is ms) (hon : ∀ m ∈ ms, (mon m).location = o)
    (h : Rel a (xs.map some)) (hs : Sorted (hmonCompare mon) xs) (hb : Balanced mon o xs ms) :
    ∃ b, unregisterFrom mon array is a = .ok b ∧ Rel b ((elsewhere mon o xs).map some) := by
  have hc := hmonCompare_comparison mon
  induction his generalizing a xs with
  | nil => exact ⟨a, rfl, by rwa [elsewhere_of_balanced hb]⟩
  | @cons i m is ms hget his ih =>
    have hmo : (mon m).location = o := hon m List.mem_cons_self
    obtain ⟨r, hr, hfound⟩ := harrayFind_sorted hc h hs m
    obtain ⟨k, hk, rfl, htie⟩ : ∃ k, ∃ hk : k < xs.length, r = (k : Int) ∧ hmonCompare mon m xs[k] = 0 := by
      refine hfound.resolve_right fun ⟨_, hnone⟩ => ?_
      have hcount := hb m hmo
      have hzero : xs.countP (fun y => hmonCompare mon m y = 0) = 0 :=
        List.countP_eq_zero.mpr fun x hx => by simpa using hnone x hx
      have hpos : 0 < (m :: ms).countP (fun y => hmonCompare mon m y = 0) :=
        List.countP_pos_iff.mpr ⟨m, List.mem_cons_self, decide_eq_true (hc.refl m)⟩
      omega
    have hlen : a.length = xs.length := by rw [h.length, List.length_map]
    have hrel : Rel (harrayRemove a k).2 ((xs.eraseIdx k).map some) := by
      have hin : ¬ ((k : Int) < 0 ∨ a.length ≤ (k : Int).toNat) := by omega
      rw [harrayRemove, if_neg hin, ← List.eraseIdx_map]
      exact harrayRemove_rel h (hlen ▸ hk)
    have hko : (mon xs[k]).location = o := hmo ▸ (tie_location hl htie).symm
    obtain ⟨b, hrun, hb'⟩ :=
      ih (fun m hm => hon m (List.mem_cons_of_mem _ hm)) hrel (hs.sublist (List.eraseIdx_sublist xs k))
      (hb.erase hk htie)
    refine ⟨b, ?_, by rwa [elsewhere_erase hk hko] at hb'⟩
    simp only [unregisterFrom, hget, bind, Except.bind, hr]
    exact hrun

end Loop

/-! ## The array of all monitors along a run -/

section Runs
variable [DecidableEq M] {L L' : Registry V M} {m : M} {xs ms : List M}

/-- The monitors when `m` has its display. -/
def Registry.displayed (L : Registry V M) (m : M) (display : Nat) : M → Hmonitor Thread V M :=
  (L.setMon m { L.mon m with display := display }).mon

/-- A registration finds the place of its monitor in the array of all monitors. The display of a monitor that is
registered already leaves the array sorted. -/
def Places (L : Registry V M) : RegLabel M → Prop
  | .register m display => (L.mon m).location.cpuset ⊆ L.allowed →
      (m ∈ L.registered → Sorted (hmonCompare (L.displayed m display)) L.registered) ∧
        Findable L.registered.length (signs (hmonCompare (L.displayed m display)) m L.registered)
  | .restrict _ => True

/-- The library after `hmon_lib_init`, with monitors on the objects of a topology. -/
def Loaded (L : Registry V M) : Prop := ∃ topo mon, Located mon ∧ L = Registry.init topo mon

/-- The array of all monitors is sorted, and the arrays of the objects hold its monitors, no cell being NULL. -/
structure Ordered (L : Registry V M) : Prop where
  located : Located L.mon
  monitors : Rel L.monitors (L.registered.map some)
  binary : L.monitors.Binary
  sorted : Sorted (hmonCompare L.mon) L.registered
  objects : ∀ o, Filled (L.arrayAt o) (L.onObject o L.registered)

omit [DecidableEq M] in
@[simp] theorem init_registered (topo : Topo) (mon : M → Hmonitor Thread V M) :
    (Registry.init topo mon).registered = [] :=
  newHarray_toList 32

omit [DecidableEq M] in
theorem init_ordered (topo : Topo) {mon : M → Hmonitor Thread V M} (h : Located mon) : Ordered (.init topo mon) where
  located := h
  monitors := by
    rw [init_registered]
    exact ⟨newHarray_fits 32, rfl⟩
  binary := ⟨5, by decide, rfl⟩
  sorted := by
    rw [init_registered]
    exact .nil
  objects o := by
    rw [init_registered]
    exact newHarray_filled (by decide)

omit [DecidableEq M] in
theorem hmonCompare_congr {mon mon' : M → Hmonitor Thread V M} {x y : M} (hx : mon x = mon' x) (hy : mon y = mon' y) :
    hmonCompare mon x y = hmonCompare mon' x y := by
  simp only [hmonCompare, hx, hy]

/-- The owner does not matter to the comparison. -/
theorem hmonCompare_owner (mon : M → Hmonitor Thread V M) (m : M) (owner : Thread) :
    hmonCompare (Function.update mon m { mon m with owner := owner }) = hmonCompare mon := by
  have hfield {β : Type} (f : Hmonitor Thread V M → β) (hf : f { mon m with owner := owner } = f (mon m)) (x : M) :
      f (Function.update mon m { mon m with owner := owner } x) = f (mon x) := by
    by_cases hx : x = m
    · rw [hx, Function.update_self, hf]
    · rw [Function.update_of_ne hx]
  funext x y
  simp only [hmonCompare, hfield Hmonitor.location rfl, hfield Hmonitor.display rfl, hfield Hmonitor.output rfl,
    hfield Hmonitor.id rfl]

/-- A successful registration, with the comparison that it uses. -/
theorem register_sorted {display : Nat} {r : Int} (h : hmonRegisterHmonitor L m display = .ok (r, L')) :
    r = -1 ∧ L' = L ∨ Inserts L m L' ∧ hmonCompare L'.mon = hmonCompare (L.displayed m display) ∧
      ∃ k, harrayInsertSorted L.monitors m (hmonCompare (L.displayed m display)) = .ok (k, L'.monitors) := by
  refine (register_inserts h).imp_right fun ⟨_, hi⟩ => ⟨hi, ?_⟩
  unfold hmonRegisterHmonitor at h
  rw [if_neg (not_not_intro hi.inside)] at h
  simp only [bind, Except.bind] at h
  split at h
  · cases h
  · rename_i res hmonitors
    split at h
    · cases h
    · rename_i owner howner
      split at h
      · cases h
      · cases h
        exact ⟨hmonCompare_owner _ _ owner, res.1, hmonitors⟩

omit [DecidableEq M] in
theorem Filled.perm {a : Harray M} (h : Filled a xs) (hp : xs.Perm ms) : Filled a ms :=
  ⟨h.fits, h.room, h.cells.trans (hp.map some)⟩

omit [DecidableEq M] in
theorem rel_toList {a : Harray M} (h : Rel a (xs.map some)) : a.toList = xs := by
  rw [Harray.toList, h.elems, List.reduceOption, List.filterMap_map]
  exact List.filterMap_some

/-- A monitor that is not registered can be given its display. -/
theorem displayed_sorted {display : Nat} (h : Sorted (hmonCompare L.mon) xs) (hm : m ∉ xs) :
    Sorted (hmonCompare (L.displayed m display)) xs := by
  have hsame {x : M} (hx : x ∈ xs) : L.displayed m display x = L.mon x :=
    L.setMon_mon_ne _ fun he => hm (he ▸ hx)
  refine h.imp_of_mem fun hx hy hle => ?_
  rwa [hmonCompare_congr (hsame hx) (hsame hy)]

/-- **A registration that finds the place of its monitor keeps the array sorted.** -/
theorem Ordered.register {display : Nat} {r : Int} (h : Ordered L) (hp : Places L (.register m display))
    (hr : hmonRegisterHmonitor L m display = .ok (r, L')) : Ordered L' := by
  rcases register_sorted hr with ⟨-, rfl⟩ | ⟨hi, hcompare, k, hmonitors⟩
  · exact h
  obtain ⟨hagain, hfind⟩ := hp hi.inside
  obtain ⟨_, k', array, harray, hu⟩ := hi.array
  obtain ⟨d, owner, hmon⟩ := hi.mon
  have hloc : ∀ x, (L'.mon x).location = (L.mon x).location := by
    rw [hmon]
    exact L.setMon_mon_location (m := m) (h := { L.mon m with display := d, owner := owner }) rfl
  have hsorted : Sorted (hmonCompare (L.displayed m display)) L.registered := by
    by_cases hm : m ∈ L.registered
    · exact hagain hm
    · exact displayed_sorted h.sorted hm
  obtain ⟨hk, hrel, hkeep⟩ := insertSorted_sorted (hmonCompare_comparison _) h.monitors
    (lt_of_le_of_lt h.binary.le (by decide)) hsorted hmonitors
  have hreg : L'.registered = L.registered.insertIdx k m := rel_toList hrel
  have hperm : L'.registered.Perm (m :: L.registered) := hreg ▸ List.perm_insertIdx _ _ hk
  have hon : ∀ o, ((m :: L.registered).filter fun x => (L.mon x).location = o).Perm (L'.onObject o L'.registered) := by
    intro o
    unfold Registry.onObject
    simp only [hloc]
    exact (hperm.filter fun x => (L.mon x).location = o).symm
  refine ⟨fun x y => by rw [hloc, hloc]; exact h.located x y, by rwa [hreg], harrayInsertSorted_binary h.monitors.fits
    h.binary hmonitors, ?_, fun o => ?_⟩
  · rw [hreg, hcompare]
    exact hkeep.mpr hfind
  · refine Filled.perm ?_ (hon o)
    unfold Registry.arrayAt
    rw [List.filter_cons]
    by_cases ho : o = (L.mon m).location
    · subst ho
      rw [if_pos (decide_eq_true rfl), hu, Function.update_self]
      exact (h.objects _).insert harray
    · rw [if_neg fun he => ho (of_decide_eq_true he).symm, hu, Function.update_of_ne ho]
      exact h.objects o

/-- A registration that finds its place or a restriction. -/
theorem Ordered.step {l : RegLabel M} (h : Ordered L) (hp : Places L l) (hn : regNext L l = some L') : Ordered L' := by
  cases l with
  | register m display =>
    simp only [regNext] at hn
    cases hr : hmonRegisterHmonitor L m display with
    | error f => rw [hr] at hn; cases hn
    | ok res =>
      rw [hr] at hn
      cases hn
      exact h.register hp hr
  | restrict domain =>
    simp only [regNext] at hn
    by_cases hd : domain ⊆ L.allowed
    · rw [hmonRestrict_included hd] at hn
      cases hn
      exact ⟨h.located, h.monitors, h.binary, h.sorted, h.objects⟩
    · rw [hmonRestrict_forbidden hd] at hn
      cases hn
      exact h

theorem regSys_ordered (h : regSys.Reach Loaded Places L) : Ordered L :=
  h.invariant (fun _ ⟨topo, _, hl, he⟩ => he ▸ init_ordered topo hl) fun _ _ _ hord hp hn => hord.step hp hn

/-! ## Unregistering -/

/-- The array of all monitors has lost the monitors of the object and nothing else, and the object its array. -/
structure Unregistered (L : Registry V M) (o : Obj) (L' : Registry V M) : Prop where
  monitors : Rel L'.monitors ((L.registered.filter fun m => (L.mon m).location ≠ o).map some)
  cleared : L'.userdata o = none
  others : ∀ o', o' ≠ o → L'.userdata o' = L.userdata o'

omit [DecidableEq M] in
theorem map_some_reduceOption {cells : List (Option M)} (h : ∀ x ∈ cells, ∃ m, x = some m) :
    cells = cells.reduceOption.map some := by
  induction cells with
  | nil => rfl
  | cons x cells ih =>
    rw [List.forall_mem_cons] at h
    obtain ⟨⟨m, rfl⟩, hcells⟩ := h
    rw [List.reduceOption_cons_of_some, List.map_cons, ← ih hcells]

omit [DecidableEq M] in
/-- The cells of a filled array, in their order. -/
theorem Filled.gets {a : Harray M} (h : Filled a ms) : a.toList.Perm ms ∧
    List.Forall₂ (fun i m => harrayGet a i = some m) (List.range a.length) a.toList := by
  have hcells : a.elems = a.toList.map some := by
    refine map_some_reduceOption fun x hx => ?_
    obtain ⟨m, -, rfl⟩ := List.mem_map.mp (h.cells.mem_iff.mp hx)
    exact ⟨m, rfl⟩
  have hlen : a.length = a.toList.length := by rw [← Harray.length_elems h.fits, hcells, List.length_map]
  constructor
  · have hperm := h.cells.filterMap id
    rwa [List.filterMap_map, Function.id_comp, List.filterMap_some] at hperm
  · rw [List.forall₂_iff_get]
    refine ⟨by rw [List.length_range, hlen], fun i hi hi' => ?_⟩
    have hcell : a.cell[i]? = some (some a.toList[i]) := by
      rw [Rel.cell ⟨h.fits, hcells⟩ (hlen ▸ hi'), List.getElem?_map, List.getElem?_eq_getElem hi']
      rfl
    have hin : ¬ a.length ≤ i := by omega
    rw [List.get_eq_getElem, List.getElem_range, List.get_eq_getElem, harrayGet, if_neg hin, hcell]
    rfl

/-- **After registrations that find the places of their monitors, unregistering an object removes exactly its
monitors.** -/
theorem unregister_exact (h : regSys.Reach Loaded Places L) (o : Obj) (ho : L.userdata o ≠ none) :
    ∃ L', hmonitorUnregisterLocation L o = .ok L' ∧ Unregistered L o L' := by
  have hord := regSys_ordered h
  obtain ⟨array, harray⟩ := Option.ne_none_iff_exists'.mp ho
  have hfilled := hord.objects o
  rw [Registry.arrayAt, harray, Option.getD_some] at hfilled
  obtain ⟨hperm, hgets⟩ := hfilled.gets
  have hon : ∀ m ∈ array.toList, (L.mon m).location = o := fun m hm =>
    of_decide_eq_true (List.mem_filter.mp (hperm.mem_iff.mp hm)).2
  obtain ⟨b, hb, hrel⟩ := unregisterFrom_spec hord.located hgets hon hord.monitors hord.sorted
    (balanced_of_perm hord.located hperm)
  unfold hmonitorUnregisterLocation
  simp only [harray, hb, bind, Except.bind]
  exact ⟨_, rfl, hrel, Function.update_self .., fun o' ho' => Function.update_of_ne ho' ..⟩

end Runs

/-! ## A monitor that is not found -/

/-- Monitors on the cores, and one on the machine. -/
def machineMonitors (i : ℕ) : Hmonitor Thread ℚ ℕ :=
  (newHmonitor .main 0 (fakeSpec [] (if i = 2 then Topo.machine else Topo.coreObj i) fun _ => 0)).get rfl

theorem machineMonitors_located : Located machineMonitors := by
  intro x y hd hi
  have hloc (i : ℕ) : (machineMonitors i).location = if i = 2 then Topo.machine else Topo.coreObj i := rfl
  simp only [hloc, Topo.machine, Topo.coreObj] at hd hi ⊢
  split_ifs at hd hi ⊢
  · rfl
  · exact absurd hd (by simp)
  · exact absurd hd (by simp)
  · rw [show x = y from hi]

def machineDemo : Registry ℚ ℕ := Registry.init Topo.twoCores machineMonitors

/-- The monitors of core 0, core 1 and the machine. -/
theorem hmonCompare_machine : hmonCompare machineMonitors 0 1 ≤ 0 ∧ hmonCompare machineMonitors 1 2 ≤ 0 ∧
    hmonCompare machineMonitors 0 2 ≤ 0 :=
  ⟨by decide, by decide, (hmonCompare_orders machineMonitors).2.1 0 1 2 (by decide) (by decide)⟩

theorem machineDemo_loaded : Loaded machineDemo := ⟨Topo.twoCores, machineMonitors, machineMonitors_located, rfl⟩

/-- The monitors of core 1 and of the machine, in this order: unregistering the core leaves the machine's. -/
theorem unregister_exact_core : ∃ L L' : Registry ℚ ℕ, L.registered = [1, 2] ∧
    hmonitorUnregisterLocation L (Topo.coreObj 1) = .ok L' ∧ Unregistered L (Topo.coreObj 1) L' := by
  have hplaces : regSys.Along Places machineDemo [.register 1 0, .register 2 0] := by
    refine ⟨fun _ => ⟨fun h => absurd h (by decide), findable_zero⟩, fun L₁ h₁ => ?_⟩
    cases h₁
    exact ⟨fun _ => ⟨fun h => absurd h (by decide), findable_one⟩, fun _ _ => trivial⟩
  have hreach : regSys.Reach Loaded Places _ := (Lts.Reach.init machineDemo_loaded).of_along hplaces
    (show regSys.exec machineDemo [.register 1 0, .register 2 0] = some _ from rfl)
  obtain ⟨L', hL', hexact⟩ := unregister_exact hreach (Topo.coreObj 1) (by decide)
  exact ⟨_, L', by decide, hL', hexact⟩

/-- A successful registration. -/
def Succeeds (L : Registry ℚ ℕ) (l : RegLabel ℕ) : Prop :=
  ∃ m display L', l = .register m display ∧ hmonRegisterHmonitor L m display = .ok (0, L')

/-- The monitors of core 1, the machine and core 0, registered in this order. -/
def machineThree : Registry ℚ ℕ :=
  (regSys.exec machineDemo [.register 1 0, .register 2 0, .register 0 0]).get rfl

theorem machineThree_reach : regSys.Reach Loaded Succeeds machineThree := by
  have halong : regSys.Along Succeeds machineDemo [.register 1 0, .register 2 0, .register 0 0] := by
    refine ⟨⟨1, 0, _, rfl, rfl⟩, fun L₁ h₁ => ?_⟩
    cases h₁
    refine ⟨⟨2, 0, _, rfl, rfl⟩, fun L₂ h₂ => ?_⟩
    cases h₂
    exact ⟨⟨0, 0, _, rfl, rfl⟩, fun _ _ => trivial⟩
  exact (Lts.Reach.init machineDemo_loaded).of_along halong rfl

/-- The last monitor was inserted between the others, and the search for that of core 1 goes to the wrong side. -/
theorem unregister_misses : ¬ ∀ (L : Registry ℚ ℕ) (o : Obj), regSys.Reach Loaded Succeeds L → L.userdata o ≠ none →
    ∃ L', hmonitorUnregisterLocation L o = .ok L' ∧ Unregistered L o L' := by
  intro h
  obtain ⟨L', hL', hexact⟩ := h machineThree (Topo.coreObj 1) machineThree_reach (by decide)
  have hthree : (hmonitorUnregisterLocation machineThree (Topo.coreObj 1)).map (fun L => L.monitors.length) = .ok 3 :=
    rfl
  rw [hL'] at hthree
  have hlen : L'.monitors.length = 3 := Except.ok.inj hthree
  have htwo := hexact.monitors.length
  rw [hlen, List.length_map] at htwo
  exact absurd htwo (by decide)

end Hmon
