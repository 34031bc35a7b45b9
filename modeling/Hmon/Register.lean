import Hmon.Restrict

/-!
# Registration loses and duplicates nothing

* `hmonRegisterAll` : a sequence of calls of `hmon_register_hmonitor`; `successful` : the monitors for which it
  returned 0;
* `HoldsExactly L ms` : the cells of the arrays are the monitors `ms`, each once, and every array fits its
  allocation;
* `registrations_exact` : **after any sequence of registrations of distinct monitors the arrays hold exactly those
  that succeeded, and the next call returns**, changing nothing when it returns -1.
-/

namespace Hmon

variable {V M : Type} [DecidableEq M]

/-- Consecutive registrations, each with its monitor and its `display`: the results and the registry. -/
def hmonRegisterAll : List (M × Nat) → Registry V M → Except Fault (List (M × Int) × Registry V M)
  | [], L => .ok ([], L)
  | (m, display) :: calls, L => do
    let (r, L) ← hmonRegisterHmonitor L m display
    let (rs, L) ← hmonRegisterAll calls L
    .ok ((m, r) :: rs, L)

omit [DecidableEq M] in
/-- The monitors whose registration returned 0. -/
def successful (rs : List (M × Int)) : List M := (rs.filter fun r => r.2 = 0).map Prod.fst

/-- The cells of the array of an object; no array has no cells. -/
def Registry.objCells (L : Registry V M) (o : Obj) : List (Option M) :=
  match L.userdata o with
  | none => []
  | some a => a.elems

/-- The monitors of `ms` that are located on the object. -/
def Registry.onObject (L : Registry V M) (o : Obj) (ms : List M) : List M :=
  ms.filter fun m => (L.mon m).location = o

/-- The arrays hold the monitors `ms`, each exactly once, and nothing else. -/
structure HoldsExactly (L : Registry V M) (ms : List M) : Prop where
  nodup : ms.Nodup
  monitors : L.monitors.elems.Perm (ms.map some)
  objects : ∀ o, (L.objCells o).Perm ((L.onObject o ms).map some)
  fits : L.monitors.Fits
  fitsAt : ∀ o a, L.userdata o = some a → a.Fits

/-! ## One array -/

section Array
variable {α : Type} {a b : Harray α} {e : α} {ms : List α}

/-- An array of the cells `ms` that has room for some cell. -/
structure Filled (a : Harray α) (ms : List α) : Prop where
  fits : a.Fits
  room : 0 < a.cell.length
  cells : a.elems.Perm (ms.map some)

theorem newHarray_filled {n : Nat} (h : 0 < n) : Filled (newHarray n : Harray α) [] :=
  ⟨newHarray_fits n, by simpa [newHarray] using h, by simp [newHarray, Harray.elems]⟩

theorem Filled.length (h : Filled a ms) : a.length = ms.length := by
  rw [← Harray.length_elems h.fits, h.cells.length_eq, List.length_map]

theorem Filled.insert {compare : α → α → Int} {k : Nat} (h : Filled a ms)
    (hi : harrayInsertSorted a e compare = .ok (k, b)) : Filled b (e :: ms) := by
  obtain ⟨⟨i, hik, he⟩, hb⟩ := harrayInsertSorted_spec h.fits hi
  have hperm : b.elems.Perm ((e :: ms).map some) := by
    rw [he, List.map_cons]
    refine (List.perm_insertIdx _ _ ?_).trans (h.cells.cons _)
    rw [Harray.length_elems h.fits]
    exact hik
  refine ⟨hb, ?_, hperm⟩
  have hlen := hperm.length_eq
  rw [Harray.length_elems hb, List.length_map, List.length_cons] at hlen
  unfold Harray.Fits at hb
  omega

/-- Below the length no cell is NULL. -/
theorem Filled.pointing (h : Filled a ms) : Pointing a.cell a.length := by
  intro i hi
  have hc : i < a.cell.length := hi.trans_le h.fits
  have hmem : a.cell[i] ∈ a.elems := by
    rw [Harray.elems, List.mem_take_iff_getElem]
    exact ⟨i, by omega, rfl⟩
  obtain ⟨x, -, hx⟩ := List.mem_map.mp (h.cells.mem_iff.mp hmem)
  refine ⟨x, ?_⟩
  unfold deref
  rw [List.getElem?_eq_getElem hc, ← hx]

theorem Filled.insert_ok (h : Filled a ms) (e : α) (compare : α → α → Int) (hl : ms.length + 1 < 2 ^ 31) :
    ∃ k b, harrayInsertSorted a e compare = .ok (k, b) :=
  harrayInsertSorted_ok e compare h.fits h.room h.pointing (by rwa [h.length])

end Array

/-! ## Both kinds of arrays -/

variable {L L' : Registry V M} {m : M} {ms : List M}

/-- The arrays hold the monitors `ms` and can take one more. -/
structure Exact (L : Registry V M) (ms : List M) : Prop where
  nodup : ms.Nodup
  monitors : Filled L.monitors ms
  objects : ∀ o, Filled (L.arrayAt o) (L.onObject o ms)

omit [DecidableEq M] in
theorem init_exact (topo : Topo) (mon : M → Hmonitor Thread V M) : Exact (Registry.init topo mon) [] :=
  ⟨List.nodup_nil, newHarray_filled (by decide), fun _ => newHarray_filled (by decide)⟩

omit [DecidableEq M] in
theorem Exact.holdsExactly (h : Exact L ms) : HoldsExactly L ms := by
  refine ⟨h.nodup, h.monitors.cells, fun o => ?_, h.monitors.fits, fun o a ha => ?_⟩
  · have hc := (h.objects o).cells
    unfold Registry.arrayAt at hc
    unfold Registry.objCells
    cases hu : L.userdata o with
    | none =>
      rw [hu] at hc
      exact hc
    | some a =>
      rw [hu] at hc
      exact hc
  · have hf := (h.objects o).fits
    rwa [Registry.arrayAt, ha] at hf

/-- A registration that returns 0 adds its monitor to the two arrays it belongs to. -/
theorem Exact.inserts (h : Exact L ms) (hm : m ∉ ms) (hi : Inserts L m L') : Exact L' (m :: ms) := by
  obtain ⟨_, k, hmonitors⟩ := hi.monitors
  obtain ⟨_, k', array, harray, hu⟩ := hi.array
  obtain ⟨display, owner, hmon⟩ := hi.mon
  have hloc : ∀ x, (L'.mon x).location = (L.mon x).location := by
    rw [hmon]
    exact L.setMon_mon_location (m := m) (h := { L.mon m with display := display, owner := owner }) rfl
  have hon : ∀ o, L'.onObject o (m :: ms) =
      if (L.mon m).location = o then m :: L.onObject o ms else L.onObject o ms := by
    intro o
    unfold Registry.onObject
    simp only [hloc, List.filter_cons, decide_eq_true_eq]
  refine ⟨List.nodup_cons.mpr ⟨hm, h.nodup⟩, h.monitors.insert hmonitors, fun o => ?_⟩
  rw [hon]
  unfold Registry.arrayAt
  by_cases ho : o = (L.mon m).location
  · subst ho
    rw [if_pos rfl, hu, Function.update_self]
    exact (h.objects _).insert harray
  · rw [if_neg fun he => ho he.symm, hu, Function.update_of_ne ho]
    exact h.objects o

/-- A processing unit has a parent: the registration looks up its thread. -/
def HasThread (L : Registry V M) (m : M) : Prop :=
  (L.mon m).location.type = .pu → L.topo.parent (L.mon m).location ≠ none

omit [DecidableEq M] in
theorem registeredOwner_ok (h : HasThread L m) : ∃ owner, registeredOwner L m = .ok owner := by
  unfold registeredOwner
  split
  · exact ⟨_, rfl⟩
  · rename_i hpu
    split
    · rename_i hp
      exact absurd hp (h hpu)
    · exact ⟨_, rfl⟩
  · exact ⟨_, rfl⟩

/-- A registration returns, as long as the arrays can grow. -/
theorem Exact.register_ok (h : Exact L ms) (hm : HasThread L m) (hl : ms.length + 1 < 2 ^ 31) (display : Nat) :
    ∃ r L', hmonRegisterHmonitor L m display = .ok (r, L') := by
  unfold hmonRegisterHmonitor
  by_cases hin : (L.mon m).location.cpuset ⊆ L.allowed
  · rw [if_neg (not_not_intro hin)]
    have hloc : ((L.setMon m { L.mon m with display := display }).mon m).location = (L.mon m).location := by
      rw [Registry.setMon_mon_self]
    have hm' : HasThread (L.setMon m { L.mon m with display := display }) m := by
      unfold HasThread
      rw [hloc]
      exact hm
    have hon : (L.onObject (L.mon m).location ms).length ≤ ms.length := List.length_filter_le _ ms
    obtain ⟨k, monitors, hmonitors⟩ := h.monitors.insert_ok m
      (hmonCompare (L.setMon m { L.mon m with display := display }).mon) hl
    obtain ⟨owner, howner⟩ := registeredOwner_ok hm'
    obtain ⟨k', array, harray⟩ := (h.objects (L.mon m).location).insert_ok m
      (hmonCompare ((L.setMon m { L.mon m with display := display }).setMon m
        { (L.setMon m { L.mon m with display := display }).mon m with owner := owner }).mon) (by omega)
    unfold Registry.arrayAt at harray
    rw [← hloc] at harray
    simp only [bind, Except.bind]
    rw [show (L.setMon m { L.mon m with display := display }).monitors = L.monitors from rfl, hmonitors]
    simp only [howner]
    rw [show (L.setMon m { L.mon m with display := display }).userdata = L.userdata from rfl, harray]
    exact ⟨_, _, rfl⟩
  · rw [if_pos hin]
    exact ⟨_, _, rfl⟩

/-! ## Sequences of registrations -/

/-- What one registration of a monitor that is not registered does. -/
theorem Exact.register {r : Int} {display : Nat} (h : Exact L ms) (hm : m ∉ ms)
    (hr : hmonRegisterHmonitor L m display = .ok (r, L')) :
    r = -1 ∧ L' = L ∨ r = 0 ∧ Exact L' (m :: ms) :=
  (register_inserts hr).imp_right fun ⟨h0, hi⟩ => ⟨h0, h.inserts hm hi⟩

theorem hmonRegisterAll_cons {display : Nat} {calls : List (M × Nat)} {rs : List (M × Int)}
    (h : hmonRegisterAll ((m, display) :: calls) L = .ok (rs, L')) : ∃ r L₁ rs', rs = (m, r) :: rs' ∧
      hmonRegisterHmonitor L m display = .ok (r, L₁) ∧ hmonRegisterAll calls L₁ = .ok (rs', L') := by
  simp only [hmonRegisterAll, bind, Except.bind] at h
  split at h
  · cases h
  · rename_i res h1
    obtain ⟨r, L₁⟩ := res
    split at h
    · cases h
    · rename_i res' h2
      obtain ⟨rs', L₂⟩ := res'
      cases h
      exact ⟨r, L₁, rs', rfl, h1, h2⟩

/-- A sequence of registrations of further distinct monitors adds the successful ones. -/
theorem Exact.registerAll {calls : List (M × Nat)} {rs : List (M × Int)} (h : Exact L ms)
    (hd : (calls.map Prod.fst).Nodup) (hnew : ∀ m ∈ ms, m ∉ calls.map Prod.fst)
    (hr : hmonRegisterAll calls L = .ok (rs, L')) : Exact L' ((successful rs).reverse ++ ms) := by
  induction calls generalizing L ms rs with
  | nil =>
    cases hr
    exact h
  | cons call calls ih =>
    obtain ⟨m, display⟩ := call
    obtain ⟨r, L₁, rs', rfl, h1, h2⟩ := hmonRegisterAll_cons hr
    obtain ⟨hmc, hd⟩ := List.nodup_cons.mp hd
    have hm : m ∉ ms := fun hm => hnew m hm List.mem_cons_self
    have hrest : ∀ x ∈ ms, x ∉ calls.map Prod.fst := fun x hx hc => hnew x hx (List.mem_cons_of_mem m hc)
    rcases h.register hm h1 with ⟨rfl, rfl⟩ | ⟨rfl, h'⟩
    · have hs : successful ((m, (-1 : Int)) :: rs') = successful rs' := rfl
      rw [hs]
      exact ih h hd hrest h2
    · have hnew' : ∀ x ∈ m :: ms, x ∉ calls.map Prod.fst := by
        intro x hx
        rcases List.mem_cons.mp hx with rfl | hx
        · exact hmc
        · exact hrest x hx
      have hs : successful ((m, (0 : Int)) :: rs') = m :: successful rs' := rfl
      rw [hs, List.reverse_cons, List.append_assoc]
      exact ih h' hd hnew' h2

omit [DecidableEq M] in
/-- The arrays hold a permutation of what they hold. -/
theorem HoldsExactly.perm {ms' : List M} (h : HoldsExactly L ms) (hp : ms.Perm ms') : HoldsExactly L ms' :=
  ⟨hp.nodup_iff.mp h.nodup, h.monitors.trans (hp.map some),
    fun o => (h.objects o).trans ((hp.filter _).map some), h.fits, h.fitsAt⟩

/-- **Registration loses and duplicates nothing.** After any sequence of registrations of distinct monitors the array
of all monitors and the arrays of the objects hold exactly the monitors whose registration returned 0; a registration
that returns -1 changes nothing; and as long as an array can grow and a processing unit has a parent, the next
registration returns. -/
theorem registrations_exact {topo : Topo} {mon : M → Hmonitor Thread V M} {calls : List (M × Nat)}
    {rs : List (M × Int)} (hd : (calls.map Prod.fst).Nodup)
    (hr : hmonRegisterAll calls (Registry.init topo mon) = .ok (rs, L)) :
    HoldsExactly L (successful rs) ∧
      (∀ m display L', hmonRegisterHmonitor L m display = .ok (-1, L') → L' = L) ∧
      ∀ m display, HasThread L m → (successful rs).length + 1 < 2 ^ 31 →
        ∃ r L', hmonRegisterHmonitor L m display = .ok (r, L') := by
  have h := (init_exact topo mon).registerAll hd (fun _ => by simp) hr
  rw [List.append_nil] at h
  refine ⟨h.holdsExactly.perm (List.reverse_perm _), fun m display L' hm => ?_, fun m display hm hl => ?_⟩
  · rcases register_inserts hm with ⟨-, he⟩ | ⟨h0, -⟩
    · exact he
    · exact absurd h0 (by decide)
  · exact h.register_ok hm (by rwa [List.length_reverse]) display

/-- Monitors of the cores 0, 2 and 1 of a machine with two cores: the second is refused. -/
theorem registrations_exact_cores : ∃ rs L, hmonRegisterAll [(0, 0), (2, 0), (1, 0)] restrictDemo = .ok (rs, L) ∧
    successful rs = [0, 1] ∧ HoldsExactly L (successful rs) := by
  have hd : (([(0, 0), (2, 0), (1, 0)] : List (ℕ × ℕ)).map Prod.fst).Nodup := by decide
  exact ⟨_, _, rfl, by decide,
    (registrations_exact hd (show hmonRegisterAll _ (Registry.init Topo.twoCores coreMonitors) = _ from rfl)).1⟩

end Hmon
