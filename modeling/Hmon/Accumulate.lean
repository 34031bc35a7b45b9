import Hmon.Monitor.Window
import Hmon.Restrict
import Hmon.Thread.Step
import Mathlib.Tactic.Linarith
import Mathlib.Tactic.Ring

/-!
# The accumulating plugin (`accumulate_monitor.c`)

* `accumulateInto` : what `hmonitor_eventset_read` does to the values behind its pointer;
* `Registry.groups` : the children by name; `expected` : for each name the sum of the samples of its children;
* `Reading c h` : a state of the child `c` after a read and a reduction;
* `Accumulates` : a read writes the expected values and no others; `EveryReadSums` : all reads do;
* `accumulates_iff` : **every read is right exactly when there is one name, no child is wider than the count of the
  name and the first one as wide, and the samples pass the events on**.
-/

namespace Hmon
open Lib

variable {V M : Type}

/-! ## The read -/

/-- The accumulating `hmonitor_eventset_read`: the row of the first child is copied and the others are added; without
a child it dereferences NULL. -/
def accumulateInto [Add V] (values : List V) : List (List V) → Option (List V)
  | [] => none
  | row :: rows => some (rows.foldl (fun values row => writeCells values 0 (List.zipWith (· + ·) values row))
      (writeCells values 0 row))

theorem drop_writeCells {β : Type} (cells : List β) (base i : Nat) (vs : List β) :
    (writeCells cells (base + i) vs).drop base = writeCells (cells.drop base) i vs := by
  induction vs generalizing cells i with
  | nil => rfl
  | cons v vs ih =>
    rw [writeCells, writeCells, Nat.add_assoc, ih, List.drop_set, if_neg (by omega), Nat.add_sub_cancel_left]

/-- In the row of its monitor that starts at `base`, the plugin copies the row of the first child, -/
theorem copyEvents_values [Double V] (self : Thread) (a : Answer V) (mon : M → Hmonitor Thread V M) (m c : M)
    (base : Nat) :
    ((Op.copyEvents m base c).effect self a mon).map (fun e => e.mon.events.drop base) =
      some (writeCells ((mon m).events.drop base) 0 (lastRow (mon c))) :=
  congrArg some (drop_writeCells _ base 0 _)

/-- and adds the row of each other child. -/
theorem addEvents_values [Double V] (self : Thread) (a : Answer V) (mon : M → Hmonitor Thread V M) (m c : M)
    (base : Nat) :
    ((Op.addEvents m base c).effect self a mon).map (fun e => e.mon.events.drop base) =
      some (writeCells ((mon m).events.drop base) 0
        (List.zipWith (· + ·) ((mon m).events.drop base) (lastRow (mon c)))) :=
  congrArg some (drop_writeCells _ base 0 _)

/-! ## The children by name -/

/-- The monitors that the names find, name by name. -/
def Registry.groups (L : Registry V M) (location : Obj) (names : List CString) : List (List (Hmonitor Thread V M)) :=
  names.map fun name => (L.childrenNamed location name).map L.mon

/-- What `hmonitor_eventset_add_named_event` returns for a name with these children: the samples of the last one. -/
def width (group : List (Hmonitor Thread V M)) : Nat := u32 ((group.getLast?.map fun c => c.nSamples).getD 0)

theorem addNamedEvents_groups {L : Registry V M} {location : Obj} {names : List CString} {cs : List M} {n : Nat}
    (h : addNamedEvents L location (fun cs => (cs.getLast?.map fun c => (L.mon c).nSamples).getD 0) names =
      some (cs, n)) :
    cs.map L.mon = (L.groups location names).flatten ∧ ∀ g ∈ L.groups location names, 0 < width g := by
  induction names generalizing cs n with
  | nil =>
    cases h
    exact ⟨rfl, fun g hg => absurd hg List.not_mem_nil⟩
  | cons name names ih =>
    simp only [addNamedEvents] at h
    split_ifs at h with hn
    obtain ⟨⟨cs', n'⟩, hrest, he⟩ := Option.map_eq_some_iff.mp h
    cases he
    obtain ⟨hcs, hpos⟩ := ih hrest
    refine ⟨by rw [List.map_append, hcs]; rfl, fun g hg => ?_⟩
    rcases List.mem_cons.mp hg with rfl | hg
    · apply Nat.pos_of_ne_zero
      intro h0
      rw [width, List.getLast?_map, Option.map_map] at h0
      exact hn (.inl h0)
    · exact hpos g hg

/-! ## Exact sums -/

section Sums
variable {A : Type}

/-- The sum over the members of a list. -/
def sumOver : List A → (A → ℚ) → ℚ
  | [], _ => 0
  | a :: as, f => f a + sumOver as f

theorem sumOver_append (as bs : List A) (f : A → ℚ) : sumOver (as ++ bs) f = sumOver as f + sumOver bs f := by
  induction as with
  | nil => exact (zero_add _).symm
  | cons a as ih => rw [List.cons_append, sumOver, sumOver, ih, add_assoc]

theorem sumOver_map {B : Type} (g : B → A) (bs : List B) (f : A → ℚ) :
    sumOver (bs.map g) f = sumOver bs fun b => f (g b) := by
  induction bs with
  | nil => rfl
  | cons b bs ih => rw [List.map_cons, sumOver, sumOver, ih]

theorem sumOver_sub (as : List A) (f g : A → ℚ) : sumOver as (fun a => f a - g a) = sumOver as f - sumOver as g := by
  induction as with
  | nil => exact (sub_zero 0).symm
  | cons a as ih =>
    rw [sumOver, sumOver, sumOver, ih]
    ring

/-- Two lists that agree position by position have the same sum. -/
theorem sumOver_forall₂ {B : Type} {as : List A} {bs : List B} {f : A → ℚ} {g : B → ℚ} {R : A → B → Prop}
    (h : List.Forall₂ R as bs) (hfg : ∀ a ∈ as, ∀ b, R a b → f a = g b) : sumOver as f = sumOver bs g := by
  induction h with
  | nil => rfl
  | @cons a b as bs hab _ ih =>
    rw [sumOver, sumOver, hfg a List.mem_cons_self b hab, ih fun a ha => hfg a (List.mem_cons_of_mem _ ha)]

end Sums

/-! ## What a child shows -/

/-- The event `j` of the last read; a child without one adds nothing. -/
def eventAt (h : Hmonitor Thread ℚ M) (j : Nat) : ℚ := (lastRow h)[j]?.getD 0

/-- The sample `j`, 0 where the child has none. -/
def sampleAt (h : Hmonitor Thread ℚ M) (j : Nat) : ℚ := (h.samples.take h.nSamples)[j]?.getD 0

/-- A state that the child `c` can be in after it was read and reduced, whatever was read and whatever its samples and
counters were before. -/
def Reading (c h : Hmonitor Thread ℚ M) : Prop :=
  ∃ h₀ : Hmonitor Thread ℚ M, h₀.nEvents = c.nEvents ∧ h₀.nSamples = c.nSamples ∧ h₀.window = c.window ∧
    h₀.model = c.model ∧ (lastRow h₀).length = h₀.nEvents ∧ h = (hmonitorReduce h₀.owner h₀).mon

/-- For each name the sums of the samples of its children. -/
def expected (groups : List (List (Hmonitor Thread ℚ M))) : List ℚ :=
  groups.flatMap fun g => (List.range (width g)).map fun j => sumOver g fun h => sampleAt h j

/-- The read writes the expected values, and no cell behind them. `groups` are the children by name, in their states
after they were read. -/
def Accumulates (groups : List (List (Hmonitor Thread ℚ M))) (values : List ℚ) : Prop :=
  ∃ cells, accumulateInto values (groups.flatten.map lastRow) = some cells ∧
    (∀ j, (∃ h ∈ groups.flatten, j < (lastRow h).length) ↔ j < (expected groups).length) ∧
    cells.take (expected groups).length = expected groups

/-- Every read is right, whatever the children have read and whatever is behind the pointer. -/
def EveryReadSums (groups : List (List (Hmonitor Thread ℚ M))) : Prop :=
  ∀ read values, List.Forall₂ (List.Forall₂ Reading) groups read → (expected read).length ≤ values.length →
    Accumulates read values

/-- There is one name; no child has more events than the count of the name, and the first one has as many; the samples
of every child differ from its events by numbers that only depend on the child, and these add up to 0. -/
def PassesOn (groups : List (List (Hmonitor Thread ℚ M))) : Prop :=
  ∃ c cs, groups = [c :: cs] ∧ c.nEvents = width (c :: cs) ∧ (∀ x ∈ cs, x.nEvents ≤ width (c :: cs)) ∧
    ∃ d : Hmonitor Thread ℚ M → Nat → ℚ,
      (∀ x ∈ c :: cs, ∀ h, Reading x h → ∀ j < width (c :: cs), sampleAt h j = eventAt h j + d x j) ∧
      ∀ j < width (c :: cs), sumOver (c :: cs) (fun x => d x j) = 0

/-! ## Readings -/

section Readings
variable {c h : Hmonitor Thread ℚ M}

theorem Reading.nEvents (hr : Reading c h) : h.nEvents = c.nEvents := by
  obtain ⟨h₀, hn, -, -, -, -, rfl⟩ := hr
  simpa [hmonitorReduce] using hn

theorem Reading.nSamples (hr : Reading c h) : h.nSamples = c.nSamples := by
  obtain ⟨h₀, -, hs, -, -, -, rfl⟩ := hr
  simpa [hmonitorReduce] using hs

/-- The reduction leaves the row of the read as it is. -/
theorem lastRow_reduce (h : Hmonitor Thread ℚ M) : lastRow (hmonitorReduce h.owner h).mon = lastRow h := by
  simp [hmonitorReduce, lastRow, hmonitorGetEvents]

theorem Reading.length (hr : Reading c h) : (lastRow h).length = c.nEvents := by
  obtain ⟨h₀, hn, -, -, -, hlen, rfl⟩ := hr
  rw [lastRow_reduce, hlen, hn]

/-- A child can have read any row. -/
theorem exists_reading (c : Hmonitor Thread ℚ M) (row : List ℚ) (hrow : row.length = c.nEvents) :
    ∃ h, Reading c h ∧ lastRow h = row := by
  have h₀ : lastRow { c with last := 0, events := row } = row := by
    simp [lastRow, hmonitorGetEvents, u32, ← hrow]
  refine ⟨_, ⟨{ c with last := 0, events := row }, rfl, rfl, rfl, rfl, ?_, rfl⟩, ?_⟩
  · rw [h₀, hrow]
  · rw [lastRow_reduce, h₀]

theorem exists_eventAt (c : Hmonitor Thread ℚ M) (f : Nat → ℚ) :
    ∃ h, Reading c h ∧ ∀ j < c.nEvents, eventAt h j = f j := by
  obtain ⟨h, hr, hrow⟩ := exists_reading c ((List.range c.nEvents).map f) (by simp)
  exact ⟨h, hr, fun j hj => by simp [eventAt, hrow, hj]⟩

theorem exists_read {g read : List (Hmonitor Thread ℚ M)} (hr : List.Forall₂ Reading g read) (hh : h ∈ read) :
    ∃ c ∈ g, Reading c h := by
  induction hr with
  | nil => exact absurd hh List.not_mem_nil
  | @cons x y g read hxy _ ih =>
    rcases List.mem_cons.mp hh with rfl | hh
    · exact ⟨x, List.mem_cons_self, hxy⟩
    · obtain ⟨c, hc, hch⟩ := ih hh
      exact ⟨c, List.mem_cons_of_mem x hc, hch⟩

end Readings

/-! ## What a read writes -/

theorem eventAt_of_le {h : Hmonitor Thread ℚ M} {j : Nat} (hj : (lastRow h).length ≤ j) : eventAt h j = 0 := by
  rw [eventAt, List.getElem?_eq_none hj, Option.getD_none]

/-- The additions: every cell has the events of the children added that are wide enough. -/
theorem foldl_rows (hs : List (Hmonitor Thread ℚ M)) (values : List ℚ) {j : Nat} {v : ℚ} (hv : values[j]? = some v) :
    ((hs.map lastRow).foldl (fun values row => writeCells values 0 (List.zipWith (· + ·) values row)) values)[j]? =
      some (v + sumOver hs fun h => eventAt h j) := by
  induction hs generalizing values v with
  | nil => simpa [sumOver] using hv
  | cons h hs ih =>
    obtain ⟨hj, hget⟩ := List.getElem?_eq_some_iff.mp hv
    have hcell : (writeCells values 0 (List.zipWith (· + ·) values (lastRow h)))[j]? = some (v + eventAt h j) := by
      by_cases hw : j < (lastRow h).length
      · have hz : j < (List.zipWith (· + ·) values (lastRow h)).length := by
          rw [List.length_zipWith]
          omega
        have hin := getElem?_writeCells_of_in hz (by omega : 0 + j < values.length)
        rw [Nat.zero_add] at hin
        rw [hin, List.getElem?_zipWith, hv, eventAt, List.getElem?_eq_getElem hw]
        rfl
      · rw [getElem?_writeCells_of_out (Or.inr (by rw [List.length_zipWith]; omega)), hv,
          eventAt_of_le (Nat.le_of_not_lt hw), add_zero]
    rw [List.map_cons, List.foldl_cons, ih _ hcell, sumOver, add_assoc]

/-- A cell of the first child starts with its event, any other one with what was there. -/
theorem getElem?_accumulateInto {h : Hmonitor Thread ℚ M} {hs : List (Hmonitor Thread ℚ M)} {values cells : List ℚ}
    (hcells : accumulateInto values ((h :: hs).map lastRow) = some cells) {j : Nat} {v : ℚ} (hv : values[j]? = some v) :
    cells[j]? = some ((if j < (lastRow h).length then eventAt h j else v) + sumOver hs fun h => eventAt h j) := by
  obtain ⟨hj, hget⟩ := List.getElem?_eq_some_iff.mp hv
  rw [List.map_cons, accumulateInto, Option.some_inj] at hcells
  subst hcells
  apply foldl_rows
  split_ifs with hw
  · have hin := getElem?_writeCells_of_in hw (by omega : 0 + j < values.length)
    rw [Nat.zero_add] at hin
    rw [hin, eventAt, List.getElem?_eq_getElem hw]
    rfl
  · rw [getElem?_writeCells_of_out (Or.inr (by omega)), hv]

/-! ## What is expected -/

theorem expected_cons (g : List (Hmonitor Thread ℚ M)) (gs : List (List (Hmonitor Thread ℚ M))) :
    expected (g :: gs) = (List.range (width g)).map (fun j => sumOver g fun h => sampleAt h j) ++ expected gs :=
  rfl

theorem length_expected_cons (g : List (Hmonitor Thread ℚ M)) (gs : List (List (Hmonitor Thread ℚ M))) :
    (expected (g :: gs)).length = width g + (expected gs).length := by
  rw [expected_cons, List.length_append, List.length_map, List.length_range]

theorem getElem?_expected {g : List (Hmonitor Thread ℚ M)} {gs : List (List (Hmonitor Thread ℚ M))} {j : Nat}
    (hj : j < width g) : (expected (g :: gs))[j]? = some (sumOver g fun h => sampleAt h j) := by
  rw [expected_cons, List.getElem?_append_left (by simpa using hj), List.getElem?_map, List.getElem?_range hj,
    Option.map_some]

/-- The block of the second name follows that of the first. -/
theorem getElem?_expected_second {g₁ g₂ : List (Hmonitor Thread ℚ M)} {gs : List (List (Hmonitor Thread ℚ M))}
    (h : 0 < width g₂) : (expected (g₁ :: g₂ :: gs))[width g₁]? = some (sumOver g₂ fun h => sampleAt h 0) := by
  rw [expected_cons, List.getElem?_append_right (by simp), List.length_map, List.length_range, Nat.sub_self,
    getElem?_expected h]

/-- The counts are those of the samples, which no read changes. -/
theorem width_read {g read : List (Hmonitor Thread ℚ M)} (h : List.Forall₂ Reading g read) : width read = width g := by
  have hlast : (read.getLast?.map fun h => h.nSamples) = g.getLast?.map fun c => c.nSamples := by
    rw [← List.getLast?_map, ← List.getLast?_map]
    congr 1
    induction h with
    | nil => rfl
    | cons hr _ ih => rw [List.map_cons, List.map_cons, hr.nSamples, ih]
  rw [width, width, hlast]

theorem length_expected_read {groups read : List (List (Hmonitor Thread ℚ M))}
    (h : List.Forall₂ (List.Forall₂ Reading) groups read) : (expected read).length = (expected groups).length := by
  induction h with
  | nil => rfl
  | cons hg _ ih => rw [length_expected_cons, length_expected_cons, width_read hg, ih]

/-! ## Reads that are right -/

section Right
variable {groups read : List (List (Hmonitor Thread ℚ M))} {values : List ℚ}

theorem Accumulates.flatten_ne_nil (h : Accumulates groups values) : groups.flatten ≠ [] := by
  obtain ⟨cells, hcells, -⟩ := h
  intro hnil
  rw [hnil] at hcells
  exact absurd hcells (by simp [accumulateInto])

/-- The cell `j` that a right read writes. -/
theorem Accumulates.cell (hacc : Accumulates groups values) {h : Hmonitor Thread ℚ M} {hs : List (Hmonitor Thread ℚ M)}
    (hcs : groups.flatten = h :: hs) {j : Nat} {e v : ℚ} (he : (expected groups)[j]? = some e)
    (hv : values[j]? = some v) :
    e = (if j < (lastRow h).length then eventAt h j else v) + sumOver hs fun h => eventAt h j := by
  obtain ⟨cells, hcells, -, htake⟩ := hacc
  obtain ⟨hj, -⟩ := List.getElem?_eq_some_iff.mp he
  rw [hcs] at hcells
  rw [← htake, List.getElem?_take_of_lt hj, getElem?_accumulateInto hcells hv, Option.some_inj] at he
  exact he.symm

/-- Over cells that hold 0 it is the sum of the events of all children. -/
theorem EveryReadSums.sum (hall : EveryReadSums groups) (hr : List.Forall₂ (List.Forall₂ Reading) groups read) {j : Nat}
    {e : ℚ} (he : (expected read)[j]? = some e) : e = sumOver read.flatten fun h => eventAt h j := by
  have hacc := hall read (List.replicate (expected read).length 0) hr (by simp)
  obtain ⟨h, hs, hcs⟩ := List.exists_cons_of_ne_nil hacc.flatten_ne_nil
  obtain ⟨hj, -⟩ := List.getElem?_eq_some_iff.mp he
  rw [hacc.cell hcs he (v := 0) (by simp [hj]), hcs, sumOver]
  split_ifs with hw
  · rfl
  · rw [eventAt_of_le (Nat.le_of_not_lt hw)]

end Right

/-! ## The reading of one child varies -/

section Vary
variable {base : Hmonitor Thread ℚ M → Hmonitor Thread ℚ M} {c h h' : Hmonitor Thread ℚ M}
  {left right : List (Hmonitor Thread ℚ M)} (before after : List (List (Hmonitor Thread ℚ M)))

/-- One child shows `h`, the others what `base` gives. -/
def readOne (base : Hmonitor Thread ℚ M → Hmonitor Thread ℚ M) (before : List (List (Hmonitor Thread ℚ M)))
    (left : List (Hmonitor Thread ℚ M)) (h : Hmonitor Thread ℚ M) (right : List (Hmonitor Thread ℚ M))
    (after : List (List (Hmonitor Thread ℚ M))) : List (List (Hmonitor Thread ℚ M)) :=
  before.map (List.map base) ++ (left.map base ++ h :: right.map base) :: after.map (List.map base)

theorem forall₂_map_base (hb : ∀ x, Reading x (base x)) (g : List (Hmonitor Thread ℚ M)) :
    List.Forall₂ Reading g (g.map base) :=
  List.forall₂_map_right_iff.mpr (List.forall₂_same.mpr fun x _ => hb x)

theorem forall₂_map_map_base (hb : ∀ x, Reading x (base x)) (gs : List (List (Hmonitor Thread ℚ M))) :
    List.Forall₂ (List.Forall₂ Reading) gs (gs.map (List.map base)) :=
  List.forall₂_map_right_iff.mpr (List.forall₂_same.mpr fun g _ => forall₂_map_base hb g)

theorem forall₂_readOne (hb : ∀ x, Reading x (base x)) (hh : Reading c h) :
    List.Forall₂ (List.Forall₂ Reading) (before ++ (left ++ c :: right) :: after)
      (readOne base before left h right after) :=
  List.rel_append (forall₂_map_map_base hb before)
    (.cons (List.rel_append (forall₂_map_base hb left) (.cons hh (forall₂_map_base hb right)))
      (forall₂_map_map_base hb after))

/-- The sum of the events moves with those of the child. -/
theorem sumOver_readOne (f : Hmonitor Thread ℚ M → ℚ) :
    sumOver (readOne base before left h' right after).flatten f -
      sumOver (readOne base before left h right after).flatten f = f h' - f h := by
  simp only [readOne, List.flatten_append, List.flatten_cons, sumOver_append, sumOver]
  ring

/-- So does a value that every read writes. -/
theorem EveryReadSums.moves (hall : EveryReadSums (before ++ (left ++ c :: right) :: after))
    (hb : ∀ x, Reading x (base x)) {k : Nat} {e : Hmonitor Thread ℚ M → ℚ}
    (he : ∀ h, Reading c h → (expected (readOne base before left h right after))[k]? = some (e h))
    (hh : Reading c h) (hh' : Reading c h') : e h' - e h = eventAt h' k - eventAt h k := by
  rw [hall.sum (forall₂_readOne _ _ hb hh') (he h' hh'), hall.sum (forall₂_readOne _ _ hb hh) (he h hh)]
  exact sumOver_readOne _ _ fun h => eventAt h k

/-- No value stays the same under all readings of a child that has an event in its cell. -/
theorem EveryReadSums.not_constant (hall : EveryReadSums (before ++ (left ++ c :: right) :: after))
    (hb : ∀ x, Reading x (base x)) {k : Nat} {e : ℚ} (hk : k < c.nEvents)
    (he : ∀ h, Reading c h → (expected (readOne base before left h right after))[k]? = some e) : False := by
  obtain ⟨x, hx, hxe⟩ := exists_eventAt c fun _ => 0
  obtain ⟨y, hy, hye⟩ := exists_eventAt c fun _ => 1
  have hmove : e - e = eventAt y k - eventAt x k := EveryReadSums.moves before after hall hb he hx hy
  rw [hxe k hk, hye k hk, sub_self, sub_zero] at hmove
  exact zero_ne_one hmove

end Vary

section Necessary
variable {groups : List (List (Hmonitor Thread ℚ M))}

/-- As many cells are written as values are expected: one child has as many events, and none has more. -/
theorem EveryReadSums.wide (hall : EveryReadSums groups) (hpos : 0 < (expected groups).length) :
    (∃ c ∈ groups.flatten, c.nEvents = (expected groups).length) ∧
      ∀ c ∈ groups.flatten, c.nEvents ≤ (expected groups).length := by
  choose base hbase using fun c : Hmonitor Thread ℚ M => exists_eventAt c fun _ => 0
  have hb : ∀ x, Reading x (base x) := fun x => (hbase x).1
  have hr := forall₂_map_map_base hb groups
  obtain ⟨-, -, hiff, -⟩ := hall _ (List.replicate (expected groups).length 0) hr
    (by rw [length_expected_read hr, List.length_replicate])
  rw [length_expected_read hr, ← List.map_flatten] at hiff
  have hle : ∀ c ∈ groups.flatten, c.nEvents ≤ (expected groups).length := by
    intro c hc
    by_contra hlt
    exact absurd ((hiff (expected groups).length).mp
      ⟨base c, List.mem_map_of_mem hc, by rw [(hb c).length]; omega⟩) (Nat.lt_irrefl _)
  obtain ⟨h, hh, hj⟩ := (hiff ((expected groups).length - 1)).mpr (by omega)
  obtain ⟨c, hc, rfl⟩ := List.mem_map.mp hh
  rw [(hb c).length] at hj
  have := hle c hc
  exact ⟨⟨c, hc, by omega⟩, hle⟩

/-- Two names: the events of the widest child are in the blocks of both, its samples in one. -/
theorem EveryReadSums.not_two {g₁ g₂ : List (Hmonitor Thread ℚ M)} {gs : List (List (Hmonitor Thread ℚ M))}
    (hall : EveryReadSums (g₁ :: g₂ :: gs)) (h₁ : 0 < width g₁) (h₂ : 0 < width g₂) : False := by
  have hlen : width g₁ < (expected (g₁ :: g₂ :: gs)).length := by
    rw [length_expected_cons, length_expected_cons]
    omega
  obtain ⟨⟨c, hc, hwide⟩, -⟩ := hall.wide (by omega)
  choose base hbase using fun c : Hmonitor Thread ℚ M => exists_eventAt c fun _ => 0
  have hb : ∀ x, Reading x (base x) := fun x => (hbase x).1
  obtain ⟨g, hg, hcg⟩ := List.mem_flatten.mp hc
  obtain ⟨left, right, rfl⟩ := List.append_of_mem hcg
  rcases List.mem_cons.mp hg with rfl | hg
  · -- a child of the first name: the second block stays
    have hk : width (left ++ c :: right) < c.nEvents := by omega
    have he : ∀ h, Reading c h → (expected (readOne base [] left h right (g₂ :: gs)))[width (left ++ c :: right)]? =
        some (sumOver (g₂.map base) fun h => sampleAt h 0) := fun h hh => by
      have hw : width (left.map base ++ h :: right.map base) = width (left ++ c :: right) :=
        width_read (List.rel_append (forall₂_map_base hb left) (.cons hh (forall₂_map_base hb right)))
      rw [← hw]
      exact getElem?_expected_second (by rwa [width_read (forall₂_map_base hb g₂)])
    exact EveryReadSums.not_constant [] (g₂ :: gs) hall hb hk he
  · -- a child of another name: the first block stays
    obtain ⟨before, after, hgs⟩ := List.append_of_mem hg
    rw [hgs] at hall
    have hk : 0 < c.nEvents := by omega
    exact EveryReadSums.not_constant (g₁ :: before) after hall hb hk fun h _ =>
      getElem?_expected (by rwa [width_read (forall₂_map_base hb g₁)])

/-- With one name the samples of each child move as its events do. -/
theorem EveryReadSums.passesOn {c : Hmonitor Thread ℚ M} {cs : List (Hmonitor Thread ℚ M)}
    (hall : EveryReadSums [c :: cs]) (hpos : 0 < width (c :: cs)) : PassesOn [c :: cs] := by
  have hW : (expected [c :: cs]).length = width (c :: cs) := length_expected_cons _ _
  obtain ⟨-, hwide⟩ := hall.wide (by omega)
  rw [List.flatten_singleton, hW] at hwide
  choose base hbase using fun c : Hmonitor Thread ℚ M => exists_eventAt c fun _ => 0
  have hb : ∀ x, Reading x (base x) := fun x => (hbase x).1
  have hr : List.Forall₂ (List.Forall₂ Reading) [c :: cs] [(c :: cs).map base] := forall₂_map_map_base hb [c :: cs]
  have hW' : width ((c :: cs).map base) = width (c :: cs) := width_read (forall₂_map_base hb _)
  -- a cell that the first child does not write keeps what was behind the pointer
  have hfirst : c.nEvents = width (c :: cs) := by
    by_contra hne
    have hlt : c.nEvents < width (c :: cs) := Nat.lt_of_le_of_ne (hwide c List.mem_cons_self) hne
    have hj : c.nEvents < (expected [(c :: cs).map base]).length := by rwa [length_expected_read hr, hW]
    have hcell : ∀ v : ℚ, sumOver ((c :: cs).map base) (fun h => sampleAt h c.nEvents) =
        v + sumOver (cs.map base) fun h => eventAt h c.nEvents := by
      intro v
      have hacc := hall _ (List.replicate (expected [(c :: cs).map base]).length v) hr (by simp)
      have hv : (List.replicate (expected [(c :: cs).map base]).length v)[c.nEvents]? = some v := by
        rw [List.getElem?_replicate, if_pos hj]
      rw [hacc.cell List.flatten_singleton (getElem?_expected (by rwa [hW'])) hv, (hb c).length,
        if_neg (Nat.lt_irrefl _)]
    have h0 := hcell 0
    rw [hcell 1] at h0
    linarith
  refine ⟨c, cs, rfl, hfirst, fun x hx => hwide x (List.mem_cons_of_mem c hx),
    fun x j => sampleAt (base x) j - eventAt (base x) j, ?_, ?_⟩
  · intro x hx h hh j hj
    obtain ⟨left, right, hsplit⟩ := List.append_of_mem hx
    rw [hsplit] at hall hj
    have hmove := EveryReadSums.moves [] [] hall hb (k := j) (fun h hh => getElem?_expected (by
      rwa [width_read (List.rel_append (forall₂_map_base hb left) (.cons hh (forall₂_map_base hb right)))]))
      (hb x) hh
    simp only [sumOver_append, sumOver] at hmove
    linarith
  · intro j hj
    have hsum := hall.sum hr (getElem?_expected (by rwa [hW']))
    rw [List.flatten_singleton, sumOver_map, sumOver_map] at hsum
    rw [sumOver_sub, hsum, sub_self]

/-! ## When every read is right -/

/-- Under one name, with the counts as wide as the children, the sum of the events is that of the samples. -/
theorem PassesOn.everyReadSums (h : PassesOn groups) : EveryReadSums groups := by
  obtain ⟨c, cs, rfl, hfirst, hwide, d, hd, hzero⟩ := h
  intro read values hr hvalues
  obtain ⟨_ | ⟨h, hs⟩, _, hg, hnil, rfl⟩ := List.forall₂_cons_left_iff.mp hr
  · cases hg
  cases hnil
  obtain ⟨hh, hhs⟩ := List.forall₂_cons.mp hg
  have hw : width (h :: hs) = width (c :: cs) := width_read hg
  have hlen : (expected [h :: hs]).length = width (c :: cs) := (length_expected_cons _ _).trans hw
  rw [hlen] at hvalues
  obtain ⟨cells, hcells⟩ : ∃ cells, accumulateInto values ((h :: hs).map lastRow) = some cells := ⟨_, rfl⟩
  refine ⟨cells, by rwa [List.flatten_singleton], fun j => ?_, ?_⟩
  · rw [List.flatten_singleton, hlen]
    constructor
    · rintro ⟨x, hx, hj⟩
      rcases List.mem_cons.mp hx with rfl | hx
      · rw [hh.length] at hj
        omega
      · obtain ⟨y, hy, hyx⟩ := exists_read hhs hx
        have := hwide y hy
        rw [hyx.length] at hj
        omega
    · intro hj
      exact ⟨h, List.mem_cons_self, by rw [hh.length]; omega⟩
  · rw [hlen]
    apply List.ext_getElem?
    intro j
    by_cases hj : j < width (c :: cs)
    · have hv : values[j]? = some values[j] := List.getElem?_eq_getElem (by omega)
      have hsum : sumOver (h :: hs) (fun x => sampleAt x j) = sumOver (h :: hs) fun x => eventAt x j := by
        rw [← sub_eq_zero, ← sumOver_sub, ← hzero j hj]
        exact (sumOver_forall₂ hg fun x hx y hxy => by rw [hd x hx y hxy j hj, add_sub_cancel_left]).symm
      rw [List.getElem?_take_of_lt hj, getElem?_accumulateInto hcells hv, getElem?_expected (by omega), hsum, hh.length,
        if_pos (by omega), sumOver]
    · rw [List.getElem?_eq_none (by rw [List.length_take]; omega), List.getElem?_eq_none (by omega)]

end Necessary

/-- **Every read of an accumulating monitor writes, for each name, the sums of the samples of its children, and nothing
else, exactly when there is one name, no child is wider than the count of the name and the first one as wide, and the
samples differ from the events by constants that add up to 0.** -/
theorem accumulates_iff {L : Registry ℚ M} {location : Obj} {names : List CString} {cs : List M} {n : Nat}
    (h : newEventset L location (.accumulate names) = some (.accumulate cs, n)) :
    cs.map L.mon = (L.groups location names).flatten ∧
      (EveryReadSums (L.groups location names) ↔ PassesOn (L.groups location names)) := by
  obtain ⟨⟨cs', n'⟩, hadd, he⟩ := Option.map_eq_some_iff.mp h
  cases he
  obtain ⟨hcs, hpos⟩ := addNamedEvents_groups hadd
  refine ⟨hcs, fun hall => ?_, PassesOn.everyReadSums⟩
  generalize L.groups location names = groups at hall hpos
  match groups with
  | [] => exact absurd rfl (hall [] [] .nil (Nat.le_refl 0)).flatten_ne_nil
  | [[]] => exact absurd (hpos [] List.mem_cons_self) (Nat.lt_irrefl 0)
  | [c :: cs] => exact hall.passesOn (hpos _ List.mem_cons_self)
  | g₁ :: g₂ :: gs =>
    exact (hall.not_two (hpos g₁ List.mem_cons_self) (hpos g₂ (List.mem_cons_of_mem _ List.mem_cons_self))).elim

/-! ## Monitors that pass their events on -/

/-- Without a reduction the samples are the events. -/
theorem sampleAt_plain {c h : Hmonitor Thread ℚ M} (hm : c.model = none) (hs : c.nSamples = c.nEvents)
    (hr : Reading c h) (j : Nat) : sampleAt h j = eventAt h j := by
  obtain ⟨h₀, hn, hsn, -, hmodel, hlen, rfl⟩ := hr
  have hsamples : (hmonitorReduce h₀.owner h₀).mon.samples = lastRow h₀ ++ h₀.samples.drop h₀.nSamples := by
    simp only [hmonitorReduce, if_true, hmodel, hm, lastRow, hsn, hn, hs]
  have hns : (hmonitorReduce h₀.owner h₀).mon.nSamples = (lastRow h₀).length := by
    rw [hlen, hn, ← hs, ← hsn]
    simp [hmonitorReduce]
  rw [sampleAt, eventAt, lastRow_reduce, hsamples, hns, List.take_left]

/-- Children of one name that all have the same number of events and no reduction. -/
theorem passesOn_plain {c : Hmonitor Thread ℚ M} {cs : List (Hmonitor Thread ℚ M)} (hu : c.nEvents < 2 ^ 32)
    (h : ∀ x ∈ c :: cs, x.model = none ∧ x.nSamples = c.nEvents ∧ x.nEvents = c.nEvents) : PassesOn [c :: cs] := by
  have hlast := (h _ (List.getLast_mem (List.cons_ne_nil c cs))).2.1
  have hw : width (c :: cs) = c.nEvents := by
    rw [width, List.getLast?_eq_some_getLast (List.cons_ne_nil c cs), Option.map_some, Option.getD_some, hlast]
    exact Nat.mod_eq_of_lt hu
  refine ⟨c, cs, rfl, hw.symm, fun x hx => ?_, fun _ _ => 0, fun x hx y hy j _ => ?_, fun j _ => ?_⟩
  · exact ((h x (List.mem_cons_of_mem c hx)).2.2.trans hw.symm).le
  · obtain ⟨hm, hs, hn⟩ := h x hx
    rw [add_zero, sampleAt_plain hm (hs.trans hn.symm) hy]
  · rw [show (fun _ : Hmonitor Thread ℚ M => (0 : ℚ)) = fun _ => 0 - 0 from funext fun _ => (sub_self 0).symm,
      sumOver_sub, sub_self]

/-- A fake monitor on each core. -/
def namedMonitors (ids : ℕ → CString) (i : ℕ) : Hmonitor Thread ℚ ℕ :=
  (newHmonitor .main 0 (fakeSpec (ids i) (Topo.coreObj i) fun _ => 0)).get rfl

def namedRegistry (ids : ℕ → CString) : Registry ℚ ℕ :=
  (regSys.exec (.init Topo.twoCores (namedMonitors ids)) [.register 0 0, .register 1 0]).get rfl

/-- The number of cores, as in the example of the sources. -/
theorem accumulates_cores :
    newEventset (namedRegistry fun _ => [102]) Topo.machine (.accumulate [[102]]) = some (.accumulate [0, 1], 1) ∧
      EveryReadSums ((namedRegistry fun _ => [102]).groups Topo.machine [[102]]) := by
  have h : newEventset (namedRegistry fun _ => [102]) Topo.machine (.accumulate [[102]]) =
      some (.accumulate [0, 1], 1) := rfl
  refine ⟨h, (accumulates_iff h).2.mpr (passesOn_plain (by decide) fun x hx => ?_)⟩
  rcases List.mem_cons.mp hx with rfl | hx
  · exact ⟨rfl, rfl, rfl⟩
  · rw [List.mem_singleton.mp hx]
    exact ⟨rfl, rfl, rfl⟩

/-- Two names with one child each: two events, but every child is added to the first one. -/
theorem two_names : ¬ ∀ (L : Registry ℚ ℕ) (location : Obj) (names : List CString) (cs : List ℕ) (n : ℕ),
    newEventset L location (.accumulate names) = some (.accumulate cs, n) →
      EveryReadSums (L.groups location names) := by
  intro h
  have hall := h (namedRegistry fun i => if i = 0 then [97] else [98]) Topo.machine [[97], [98]] [0, 1] 2 rfl
  exact hall.not_two (by decide) (by decide)

end Hmon
