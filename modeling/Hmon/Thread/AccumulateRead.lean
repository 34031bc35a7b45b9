import Hmon.Accumulate
import Hmon.Thread.Refresh

/-!
# Which children an accumulating read refreshes (`accumulate_monitor.c`)

`hmonitor_eventset_read` reads its first child without a lock, the others behind `hmonitor_trylock(m, 1)`.

* `Below`, `Separate` : the monitors that the children of an eventset read in turn; children that share none;
* `children_refreshed`, `first_refreshed` : how often the two parts of a read refresh each child;
* `RefreshesEvery` : in every order of the children a read refreshes each one once and writes the same values;
* `refreshesEvery_iff` : **this holds exactly when the caller owns every child, each is there once, and they are equally
  wide**.
-/

namespace Hmon
open Lib

variable {V M : Type}

/-! ## The monitors that a child reads -/

/-- `x` is read when `c` is: it is a child of `c`, or below one. -/
def Below (s : M → Hmonitor Thread V M) (c x : M) : Prop :=
  Relation.TransGen (fun p d => d ∈ (s p).eventset.childEvents) c x

/-- The monitors of the children and below them. -/
def Forest (s : M → Hmonitor Thread V M) (cs : List M) (x : M) : Prop := ∃ c ∈ cs, x = c ∨ Below s c x

/-- Children of `m` that read different monitors, all unlocked and none of them `m`; no read of theirs crashes. -/
structure Separate (s : M → Hmonitor Thread V M) (m : M) (cs : List M) : Prop where
  layered : ∃ nodes, Layered (fun x => (s x).eventset.childEvents) nodes ∧ ∀ c ∈ cs, c ∈ nodes
  outside : ¬ Forest s cs m
  apart : ∀ c ∈ cs, ∀ d ∈ cs, c ≠ d → ∀ x, x = c ∨ Below s c x → ¬ (x = d ∨ Below s d x)
  free : ∀ x, Forest s cs x → (s x).mutex = none
  children : ∀ x, Forest s cs x → (s x).eventset ≠ .accumulate []

section Separate
variable {s r : M → Hmonitor Thread V M} {m c : M} {cs : List M} {t : Thread}

theorem below_closed (h : ∀ x, (r x).eventset = (s x).eventset) (c : M) : Closed (Below s c) r := by
  intro x hx d hd
  rw [h] at hd
  exact hx.tail hd

theorem forest_closed (h : ∀ x, (r x).eventset = (s x).eventset) (cs : List M) : Closed (Forest s cs) r := by
  rintro x ⟨c, hc, hx⟩ d hd
  rw [h] at hd
  refine ⟨c, hc, .inr ?_⟩
  rcases hx with rfl | hx
  · exact .single hd
  · exact hx.tail hd

theorem Forest.of_mem (hc : c ∈ cs) : Forest s cs c := ⟨c, hc, .inl rfl⟩

/-- Reading costs: a monitor pays for its children, and is not below itself. -/
theorem Separate.cost (h : Separate s m cs) : (∃ cost, PaysOn cost (Forest s cs) s) ∧ ∀ c ∈ cs, ¬ Below s c c := by
  obtain ⟨nodes, hlayered, hnodes⟩ := h.layered
  obtain ⟨cost, hcost⟩ := hlayered.cost 4 2
  have hbelow : ∀ p, p ∈ nodes → ∀ x, Below s p x → x ∈ nodes ∧ cost x < cost p := by
    intro p hp x hx
    have hlt : ∀ q ∈ nodes, ∀ d ∈ (s q).eventset.childEvents, cost d < cost q := by
      intro q hq d hd
      have hle := le_total (f := fun c => cost c + 4) hd
      have hpay := hcost q hq
      omega
    induction hx with
    | single hd => exact ⟨hlayered.children_mem hp hd, hlt p hp _ hd⟩
    | tail _ hd ih => exact ⟨hlayered.children_mem ih.1 hd, (hlt _ ih.1 _ hd).trans ih.2⟩
  refine ⟨⟨cost, fun x hx => ?_⟩, fun c hc hself => Nat.lt_irrefl _ (hbelow c (hnodes c hc) c hself).2⟩
  obtain ⟨c, hc, rfl | hx⟩ := hx
  · exact hcost _ (hnodes _ hc)
  · exact hcost x (hbelow c (hnodes c hc) x hx).1

end Separate

/-! ## Refreshments -/

/-- A run refreshed the monitor `c` `k` times, from `h` to `h'`. -/
structure Refreshed [DecidableEq M] (k : Nat) (c : M) (l : List (M × Event)) (h h' : Hmonitor Thread V M) : Prop where
  refreshes : Refreshes k (eventsOf c l)
  total : h'.total = (fun n => u32 (n + 1))^[k] h.total

section Reads
variable [Double V] [DecidableEq M] {s s' r r' : M → Hmonitor Thread V M} {m c d : M} {cs ds : List M} {base : Nat}
  {t : Thread} {answer : Replies V M} {l l' : List (M × Event)}

omit [Double V] in
theorem Refreshed.trans {j k : Nat} {h h' h'' : Hmonitor Thread V M} (hk : Refreshed k c l h h')
    (hj : Refreshed j c l' h' h'') : Refreshed (k + j) c (l ++ l') h h'' := by
  refine ⟨?_, ?_⟩
  · rw [eventsOf_append]
    exact hk.refreshes.append hj.refreshes
  · rw [hj.total, hk.total, Nat.add_comm, Function.iterate_add_apply]

omit [Double V] in
theorem Refreshed.none {h : Hmonitor Thread V M} (hl : ∀ p ∈ l, p.1 ≠ c) : Refreshed 0 c l h h :=
  ⟨by rw [eventsOf_nil hl]; exact .zero, rfl⟩

/-- The children of every monitor as they were, and the thread alone on those below `cs`. -/
structure Kept (t : Thread) (s : M → Hmonitor Thread V M) (cs : List M) (r : M → Hmonitor Thread V M) : Prop where
  eventset : ∀ x, (r x).eventset = (s x).eventset
  alone : AloneOn t (Forest s cs) r

omit [Double V] [DecidableEq M] in
theorem Separate.kept (h : Separate s m cs) (t : Thread) : Kept t s cs s :=
  ⟨fun _ => rfl, fun x hx hm => absurd (h.free x hx) hm, h.children⟩

theorem Kept.exists_runs (answer : Replies V M) (ha : Separate s m cs) (hk : Kept t s cs r) {ops : List (Op M)}
    (hops : ∀ op ∈ ops, Inner (Forest s cs) m op) (hb : ∀ x, .blocked x ∉ ops) :
    ∃ l r', Runs t answer ops r l r' ∧ Kept t s cs r' := by
  obtain ⟨⟨cost, hcost⟩, -⟩ := ha.cost
  have hpays : PaysOn cost (Forest s cs) r := fun x hx => by
    rw [hk.eventset]
    exact hcost x hx
  obtain ⟨l, r', hrun, halone⟩ :=
    Hmon.exists_runs answer ha.outside (forest_closed hk.eventset cs) hk.alone hpays hops hb
  exact ⟨l, r', hrun, fun x => (hrun.shape x).eventset.trans (hk.eventset x), halone⟩

theorem Kept.run (ha : Separate s m cs) (hk : Kept t s cs r) {ops : List (Op M)} (h : Runs t answer ops r l r')
    (hops : ∀ op ∈ ops, Inner (Forest s cs) m op) (hb : ∀ x, .blocked x ∉ ops) : Kept t s cs r' := by
  obtain ⟨_, _, hrun, hk'⟩ := hk.exists_runs answer ha hops hb
  obtain ⟨-, rfl⟩ := h.det hrun
  exact hk'

/-- The row added to the cells from `base` on. -/
def addRow (base : Nat) (events row : List V) : List V :=
  writeCells events base (List.zipWith (· + ·) (events.drop base) row)

/-- The second part of a read, child by child. -/
theorem child_run (ha : Separate s m cs) (hk : Kept t s cs r) (hd : d ∈ cs)
    (h : Runs t answer [.lockChild d, .addEvents m base d] r l r') : ∃ x s₂,
      Runs t answer [.read d, .reduce d] (Function.update r d { r d with owner := t, mutex := x }) l s₂ ∧
      RefreshRun t (Below s d) d (Function.update r d { r d with owner := t, mutex := x }) l s₂ ∧
      r' = Function.update (Function.update s₂ d { s₂ d with mutex := none }) m
        { s₂ m with events := addRow base (s₂ m).events (lastRow (s₂ d)) } := by
  have hmd : m ≠ d := fun heq => ha.outside (heq ▸ .of_mem hd)
  have h : Runs t answer ([.lockChild d] ++ [.addEvents m base d]) r l r' := h
  obtain ⟨s₁, l₁, l₂, rfl, hlock, hadd⟩ := h.split
  obtain ⟨x, s₂, hrun, hrefresh, rfl⟩ := hlock.lockChild (hk.alone.owner d (.of_mem hd)) (ha.cost.2 d hd)
    (below_closed hk.eventset d) (fun x hx => .single (by rwa [hk.eventset] at hx))
    (by rw [hk.eventset]; exact ha.children d (.of_mem hd))
  have heffect : ∀ a, (Op.addEvents m base d).effect t a (Function.update s₂ d { s₂ d with mutex := none }) =
      some ⟨{ s₂ m with events := addRow base (s₂ m).events (lastRow (s₂ d)) }, [], []⟩ := by
    intro a
    simp only [Op.effect, Function.update_of_ne hmd, Function.update_self]
    rfl
  obtain ⟨_, rfl, hnil⟩ := hadd.uncons (heffect _)
  cases hnil
  rw [List.append_nil]
  exact ⟨x, s₂, hrun, hrefresh, rfl⟩

omit [Double V] [DecidableEq M] in
/-- A child is not below another one. -/
theorem Separate.not_below (ha : Separate s m cs) (hc : c ∈ cs) (hd : d ∈ cs) (hne : c ≠ d) : ¬ Below s d c :=
  fun hb => ha.apart c hc d hd hne c (.inl rfl) (.inr hb)

/-- It refreshes its child once, and no other one. -/
theorem child_refreshed (ha : Separate s m cs) (hk : Kept t s cs r) (hd : d ∈ cs)
    (h : Runs t answer [.lockChild d, .addEvents m base d] r l r') :
    ∀ c ∈ cs, Refreshed (if d = c then 1 else 0) c l (r c) (r' c) := by
  obtain ⟨x, s₂, -, hrefresh, rfl⟩ := child_run ha hk hd h
  intro c hc
  have hcm : c ≠ m := fun heq => ha.outside (heq ▸ .of_mem hc)
  rw [Function.update_of_ne hcm]
  by_cases hdc : d = c
  · subst hdc
    rw [if_pos rfl, Function.update_self]
    obtain ⟨now, events, -, hmon⟩ := hrefresh.mon
    rw [Function.update_self] at hmon
    refine ⟨hrefresh.refreshes, ?_⟩
    rw [hmon]
    simp only [hmonitorReduce]
    split_ifs <;> rfl
  · have hcd : c ≠ d := fun heq => hdc heq.symm
    have hbelow := ha.not_below hc hd hcd
    rw [if_neg hdc, Function.update_of_ne hcd, hrefresh.out c hbelow hcd, Function.update_of_ne hcd]
    exact .none (hrefresh.log_ne hbelow hcd)

/-- The second part of a read refreshes each child as often as it is there. -/
theorem children_refreshed (ha : Separate s m cs) (hk : Kept t s cs r) (hds : ds ⊆ cs)
    (h : Runs t answer (ds.flatMap fun d => [.lockChild d, .addEvents m base d]) r l r') :
    ∀ c ∈ cs, Refreshed (ds.count c) c l (r c) (r' c) := by
  induction ds generalizing r l with
  | nil =>
    cases h
    exact fun c _ => .none fun p hp => absurd hp List.not_mem_nil
  | cons d ds ih =>
    have hd : d ∈ cs := hds List.mem_cons_self
    rw [List.flatMap_cons] at h
    obtain ⟨r₁, l₁, l₂, rfl, hfirst, hrest⟩ := h.split
    have hinner : ∀ op ∈ [Op.lockChild d, .addEvents m base d], Inner (Forest s cs) m op := by
      rw [List.forall_mem_cons, List.forall_mem_singleton]
      exact ⟨.below (Forest.of_mem hd), .addEvents base (.of_mem hd)⟩
    have hk₁ := hk.run ha hfirst hinner (by simp)
    intro c hc
    have hone := child_refreshed ha hk hd hfirst c hc
    have hothers := ih hk₁ (List.subset_of_cons_subset hds) hrest c hc
    rw [List.count_cons, Nat.add_comm]
    simp only [beq_iff_eq]
    exact hone.trans hothers

/-- The first part of a read, of a child that the thread owns. -/
theorem first_run (ha : Separate s m cs) (hd : d ∈ cs) (ho : (s d).owner = t)
    (h : Runs t answer [.read d, .reduce d, .copyEvents m base d] s l s') : ∃ s₂,
      Runs t answer [.read d, .reduce d] s l s₂ ∧ RefreshRun t (Below s d) d s l s₂ ∧
      s' = Function.update s₂ m { s₂ m with events := writeCells (s₂ m).events base (lastRow (s₂ d)) } := by
  have h : Runs t answer ([.read d, .reduce d] ++ [.copyEvents m base d]) s l s' := h
  obtain ⟨s₂, l₁, l₂, rfl, hrun, hcopy⟩ := h.split
  obtain ⟨hrefresh, -⟩ := hrun.refresh ho (ha.cost.2 d hd) (below_closed (fun _ => rfl) d)
    (fun x hx => .single hx) (ha.children d (.of_mem hd)) (.refl _ d s)
  obtain ⟨_, rfl, hnil⟩ := hcopy.uncons rfl
  cases hnil
  rw [List.append_nil]
  exact ⟨s₂, hrun, hrefresh, rfl⟩

/-- The child of another thread is copied as it is. -/
theorem first_run_other (ho : (s d).owner ≠ t)
    (h : Runs t answer [.read d, .reduce d, .copyEvents m base d] s l s') : l = [] ∧
      s' = Function.update s m { s m with events := writeCells (s m).events base (lastRow (s d)) } := by
  have hread : ∀ a, (Op.read d).effect t a s = some ⟨s d, [], []⟩ := fun a => by
    simp only [Op.effect, if_neg ho]
  have hreduce : ∀ a, (Op.reduce d).effect t a s = some ⟨s d, [], []⟩ := fun a => by
    simp only [Op.effect, hmonitorReduce, if_neg ho]
    rfl
  obtain ⟨_, rfl, h⟩ := h.uncons (hread _)
  rw [show Function.update s (Op.read d).target (s d) = s from Function.update_eq_self d s] at h
  obtain ⟨_, rfl, h⟩ := h.uncons (hreduce _)
  rw [show Function.update s (Op.reduce d).target (s d) = s from Function.update_eq_self d s] at h
  obtain ⟨_, rfl, hnil⟩ := h.uncons rfl
  cases hnil
  exact ⟨rfl, rfl⟩

/-- The first part of a read refreshes its child if the thread owns it, and no other one. -/
theorem first_refreshed (ha : Separate s m cs) (hd : d ∈ cs)
    (h : Runs t answer [.read d, .reduce d, .copyEvents m base d] s l s') :
    ∀ c ∈ cs, Refreshed (if (s d).owner = t ∧ d = c then 1 else 0) c l (s c) (s' c) := by
  intro c hc
  have hcm : c ≠ m := fun heq => ha.outside (heq ▸ .of_mem hc)
  by_cases ho : (s d).owner = t
  · obtain ⟨s₂, -, hrefresh, rfl⟩ := first_run ha hd ho h
    rw [Function.update_of_ne hcm]
    by_cases hdc : d = c
    · subst hdc
      rw [if_pos ⟨ho, rfl⟩]
      obtain ⟨now, events, -, hmon⟩ := hrefresh.mon
      refine ⟨hrefresh.refreshes, ?_⟩
      rw [hmon]
      simp only [hmonitorReduce]
      split_ifs <;> rfl
    · have hcd : c ≠ d := fun heq => hdc heq.symm
      have hbelow := ha.not_below hc hd hcd
      rw [if_neg fun hand => hdc hand.2, hrefresh.out c hbelow hcd]
      exact .none (hrefresh.log_ne hbelow hcd)
  · obtain ⟨rfl, rfl⟩ := first_run_other ho h
    rw [if_neg fun hand => ho hand.1, Function.update_of_ne hcm]
    exact .none fun p hp => absurd hp List.not_mem_nil

/-! ## A whole read -/

/-- The operations of a read of the children `d :: ds`. -/
def readOps (m : M) (base : Nat) (d : M) (ds : List M) : List (Op M) :=
  [.read d, .reduce d, .copyEvents m base d] ++ ds.flatMap fun d => [.lockChild d, .addEvents m base d]

omit [Double V] [DecidableEq M] in
theorem first_inner (base : Nat) (hd : d ∈ cs) :
    ∀ op ∈ [Op.read d, .reduce d, .copyEvents m base d], Inner (Forest s cs) m op := by
  rw [List.forall_mem_cons, List.forall_mem_cons, List.forall_mem_singleton]
  exact ⟨.below (Forest.of_mem hd), .below (Forest.of_mem hd), .copyEvents base (.of_mem hd)⟩

/-- A read comes to its end. -/
theorem exists_readRun (t : Thread) (answer : Replies V M) (base : Nat) (ha : Separate s m cs) (hds : d :: ds ⊆ cs) :
    ∃ l s', Runs t answer (readOps m base d ds) s l s' := by
  have hinner : ∀ op ∈ readOps m base d ds, Inner (Forest s cs) m op :=
    accumulateRead_inner (fun x hx => .of_mem (hds hx)) (show accumulateRead m base (d :: ds) = _ from rfl)
  obtain ⟨l, s', hrun, -⟩ := (ha.kept t).exists_runs answer ha hinner (by simp [readOps])
  exact ⟨l, s', hrun⟩

/-- **A read refreshes the first child if its thread owns it, and every later one as often as it is there.** -/
theorem read_refreshed (ha : Separate s m cs) (hds : d :: ds ⊆ cs) (h : Runs t answer (readOps m base d ds) s l s') :
    ∀ c ∈ cs, Refreshed ((if (s d).owner = t ∧ d = c then 1 else 0) + ds.count c) c l (s c) (s' c) := by
  have hd : d ∈ cs := hds List.mem_cons_self
  obtain ⟨s₁, l₁, l₂, rfl, hfirst, hrest⟩ := h.split
  have hk₁ := (ha.kept t).run ha hfirst (first_inner base hd) (by simp)
  intro c hc
  exact (first_refreshed ha hd hfirst c hc).trans
    (children_refreshed ha hk₁ (List.subset_of_cons_subset hds) hrest c hc)

/-! ## The values of a read whose thread owns the children -/

/-- `fresh c` is the child `c` after a read and a reduction. -/
def FreshChildren (t : Thread) (answer : Replies V M) (s : M → Hmonitor Thread V M) (cs : List M)
    (fresh : M → Hmonitor Thread V M) : Prop :=
  ∀ c ∈ cs, ∃ l s', Runs t answer [.read c, .reduce c] s l s' ∧ fresh c = s' c

theorem Separate.exists_fresh (ha : Separate s m cs) (t : Thread) (answer : Replies V M) :
    ∃ fresh, FreshChildren t answer s cs fresh := by
  have hex : ∀ c ∈ cs, ∃ h l s', Runs t answer [.read c, .reduce c] s l s' ∧ h = s' c := by
    intro c hc
    have hinner : ∀ op ∈ [Op.read c, .reduce c], Inner (Forest s cs) m op :=
      fun op hop => first_inner 0 hc op (List.mem_append_left [_] hop)
    obtain ⟨l, s', hrun, -⟩ := (ha.kept t).exists_runs answer ha hinner (by simp)
    exact ⟨_, l, s', hrun, rfl⟩
  exact ⟨fun c => if hc : c ∈ cs then (hex c hc).choose else s c, fun c hc => by
    simp only [dif_pos hc]
    exact (hex c hc).choose_spec⟩

/-- Where a child and what is below it are still as they were, its row is the fresh one. -/
theorem fresh_row {fresh : M → Hmonitor Thread V M} (ha : Separate s m cs) (hf : FreshChildren t answer s cs fresh)
    (ho : (s d).owner = t) (hd : d ∈ cs) (hsame : ∀ x, x = d ∨ Below s d x → r x = s x) {x : Option Thread}
    (h : Runs t answer [.read d, .reduce d] (Function.update r d { r d with owner := t, mutex := x }) l r') :
    lastRow (r' d) = lastRow (fresh d) := by
  have hself : ¬ Below s d d := ha.cost.2 d hd
  have hagree : Agree (Below s d) d s (Function.update r d { r d with owner := t, mutex := x }) := by
    refine ⟨fun y hy => ?_, x, ?_⟩
    · rw [Function.update_of_ne fun heq : y = d => hself (heq ▸ hy), hsame y (.inr hy)]
    · rw [Function.update_self, hsame d (.inl rfl), ← ho]
  obtain ⟨l₀, s₀, hrun₀, hfresh⟩ := hf d hd
  obtain ⟨-, r₂, hrun₂, hagree₂, -⟩ := hrun₀.refresh ho hself (below_closed (fun _ => rfl) d)
    (fun y hy => .single hy) (ha.children d (.of_mem hd)) hagree
  obtain ⟨-, rfl⟩ := h.det hrun₂
  obtain ⟨y, hy⟩ := hagree₂.self
  rw [hfresh, hy]
  rfl

/-- The second part of a read adds the fresh rows. -/
theorem children_events {fresh : M → Hmonitor Thread V M} (ha : Separate s m cs) (hf : FreshChildren t answer s cs fresh)
    (ho : ∀ c ∈ cs, (s c).owner = t) (hk : Kept t s cs r) (hds : ds ⊆ cs) (hnodup : ds.Nodup)
    (hsame : ∀ d ∈ ds, ∀ x, x = d ∨ Below s d x → r x = s x)
    (h : Runs t answer (ds.flatMap fun d => [.lockChild d, .addEvents m base d]) r l r') :
    (r' m).events = (ds.map fun d => lastRow (fresh d)).foldl (addRow base) (r m).events := by
  induction ds generalizing r l with
  | nil =>
    cases h
    rfl
  | cons d ds ih =>
    have hd : d ∈ cs := hds List.mem_cons_self
    have hds' : ds ⊆ cs := List.subset_of_cons_subset hds
    obtain ⟨hnot, hnodup⟩ := List.nodup_cons.mp hnodup
    have hmd : m ≠ d := fun heq => ha.outside (heq ▸ .of_mem hd)
    have hmb : ¬ Below s d m := fun hb => ha.outside ⟨d, hd, .inr hb⟩
    rw [List.flatMap_cons] at h
    obtain ⟨r₁, l₁, l₂, rfl, hfirst, hrest⟩ := h.split
    have hinner : ∀ op ∈ [Op.lockChild d, .addEvents m base d], Inner (Forest s cs) m op := by
      rw [List.forall_mem_cons, List.forall_mem_singleton]
      exact ⟨.below (Forest.of_mem hd), .addEvents base (.of_mem hd)⟩
    have hk₁ := hk.run ha hfirst hinner (by simp)
    obtain ⟨x, s₂, hrun, hrefresh, rfl⟩ := child_run ha hk hd hfirst
    have hrow := fresh_row ha hf (ho d hd) hd (hsame d List.mem_cons_self) hrun
    have hout : ∀ y, ¬ Below s d y → y ≠ d → y ≠ m →
        Function.update (Function.update s₂ d { s₂ d with mutex := none }) m
          { s₂ m with events := addRow base (s₂ m).events (lastRow (s₂ d)) } y = r y := by
      intro y hy hyd hym
      rw [Function.update_of_ne hym, Function.update_of_ne hyd, hrefresh.out y hy hyd, Function.update_of_ne hyd]
    have hothers := ih hk₁ hds' hnodup (fun e he y hy => ?_) hrest
    · rw [hothers, Function.update_self, List.map_cons, List.foldl_cons, hrow, hrefresh.out m hmb hmd,
        Function.update_of_ne hmd]
    · have hed : e ≠ d := fun heq => hnot (heq ▸ he)
      have hapart := ha.apart e (hds' he) d hd hed y hy
      have hym : y ≠ m := fun heq => ha.outside ⟨e, hds' he, heq ▸ hy⟩
      rw [hout y (fun hb => hapart (.inr hb)) (fun heq => hapart (.inl heq)) hym]
      exact hsame e (List.mem_cons_of_mem d he) y hy

/-- **A read of children that its thread owns and that are there once writes their fresh rows.** -/
theorem read_events {fresh : M → Hmonitor Thread V M} (ha : Separate s m cs) (hf : FreshChildren t answer s cs fresh)
    (ho : ∀ c ∈ cs, (s c).owner = t) (hds : d :: ds ⊆ cs) (hnodup : (d :: ds).Nodup)
    (h : Runs t answer (readOps m base d ds) s l s') : (s' m).events =
      (ds.map fun d => lastRow (fresh d)).foldl (addRow base) (writeCells (s m).events base (lastRow (fresh d))) := by
  have hd : d ∈ cs := hds List.mem_cons_self
  have hmd : m ≠ d := fun heq => ha.outside (heq ▸ .of_mem hd)
  have hmb : ¬ Below s d m := fun hb => ha.outside ⟨d, hd, .inr hb⟩
  obtain ⟨hnot, hnodup⟩ := List.nodup_cons.mp hnodup
  obtain ⟨s₁, l₁, l₂, rfl, hfirst, hrest⟩ := h.split
  have hk₁ := (ha.kept t).run ha hfirst (first_inner base hd) (by simp)
  obtain ⟨s₂, hrun, hrefresh, rfl⟩ := first_run ha hd (ho d hd) hfirst
  obtain ⟨l₀, s₀, hrun₀, hfresh⟩ := hf d hd
  obtain ⟨-, rfl⟩ := hrun.det hrun₀
  have hothers := children_events ha hf ho hk₁ (List.subset_of_cons_subset hds) hnodup (fun e he y hy => ?_) hrest
  · rw [hothers, Function.update_self, hfresh, hrefresh.out m hmb hmd]
  · have he' : e ∈ cs := hds (List.mem_cons_of_mem d he)
    have hapart := ha.apart e he' d hd (fun heq => hnot (heq ▸ he)) y hy
    rw [Function.update_of_ne fun heq : y = m => ha.outside ⟨e, he', heq ▸ hy⟩]
    exact hrefresh.out y (fun hb => hapart (.inr hb)) fun heq => hapart (.inl heq)

end Reads

/-! ## The cells behind the pointer -/

section Cells
variable {base : Nat}

theorem foldl_addRow_drop [Double V] (rows : List (List V)) (events : List V) :
    (rows.foldl (addRow base) events).drop base =
      rows.foldl (fun values row => writeCells values 0 (List.zipWith (· + ·) values row)) (events.drop base) := by
  induction rows generalizing events with
  | nil => rfl
  | cons row rows ih =>
    rw [List.foldl_cons, List.foldl_cons, ih]
    exact congrArg (rows.foldl _) (drop_writeCells events base 0 _)

theorem take_writeCells {β : Type} (cells : List β) (base : Nat) (vs : List β) :
    (writeCells cells base vs).take base = cells.take base := by
  apply List.ext_getElem?
  intro j
  by_cases hj : j < base
  · rw [List.getElem?_take_of_lt hj, List.getElem?_take_of_lt hj, getElem?_writeCells_of_out (.inl hj)]
  · have hle := Nat.le_of_not_lt hj
    rw [List.getElem?_take_eq_none hle, List.getElem?_take_eq_none hle]

theorem foldl_addRow_take [Double V] (base : Nat) (rows : List (List V)) (events : List V) :
    (rows.foldl (addRow base) events).take base = events.take base ∧
      (rows.foldl (addRow base) events).length = events.length := by
  induction rows generalizing events with
  | nil => exact ⟨rfl, rfl⟩
  | cons row rows ih =>
    obtain ⟨htake, hlen⟩ := ih (addRow base events row)
    exact ⟨htake.trans (take_writeCells _ _ _), hlen.trans (length_writeCells _ _ _)⟩

theorem sumOver_perm {A : Type} {as bs : List A} (h : as.Perm bs) (f : A → ℚ) : sumOver as f = sumOver bs f := by
  induction h with
  | nil => rfl
  | cons a _ ih => rw [sumOver, sumOver, ih]
  | swap a b as =>
    simp only [sumOver]
    ring
  | trans _ _ ih ih' => rw [ih, ih']

end Cells

section Values
variable [DecidableEq M] {s s' : M → Hmonitor Thread ℚ M} {m c d : M} {cs ds : List M} {base : Nat} {t : Thread}
  {answer : Replies ℚ M} {l : List (M × Event)} {fresh : M → Hmonitor Thread ℚ M}

/-- What a read leaves: the cells before the pointer, and behind it the rows added. -/
theorem read_cells_fresh (ha : Separate s m cs) (hf : FreshChildren t answer s cs fresh) (ho : ∀ c ∈ cs, (s c).owner = t)
    (hds : d :: ds ⊆ cs) (hnodup : (d :: ds).Nodup) (h : Runs t answer (readOps m base d ds) s l s') :
    (s' m).events.take base = (s m).events.take base ∧ (s' m).events.length = (s m).events.length ∧
      accumulateInto ((s m).events.drop base) (((d :: ds).map fresh).map lastRow) = some ((s' m).events.drop base) := by
  have hevents := read_events ha hf ho hds hnodup h
  obtain ⟨htake, hlen⟩ := foldl_addRow_take base (ds.map fun d => lastRow (fresh d))
    (writeCells (s m).events base (lastRow (fresh d)))
  rw [hevents]
  refine ⟨htake.trans (take_writeCells _ _ _), hlen.trans (length_writeCells _ _ _), ?_⟩
  rw [foldl_addRow_drop, List.map_map, List.map_cons, accumulateInto]
  exact congrArg (fun v => some ((ds.map fun d => lastRow (fresh d)).foldl _ v)) (drop_writeCells _ base 0 _).symm

/-- The fresh row of a child whose rows are all in its buffer is as wide as the child. -/
theorem fresh_length (ha : Separate s m cs) (hf : FreshChildren t answer s cs fresh) (ho : ∀ c ∈ cs, (s c).owner = t)
    (hc : c ∈ cs) (hw : 0 < (s c).window) (hrows : RowsFit (s c) (s c).window) :
    (lastRow (fresh c)).length = (s c).nEvents := by
  obtain ⟨l, s', hrun, hfresh⟩ := hf c hc
  obtain ⟨hrefresh, -⟩ := hrun.refresh (ho c hc) (ha.cost.2 c hc) (below_closed (fun _ => rfl) c)
    (fun x hx => .single hx) (ha.children c (.of_mem hc)) (.refl _ c s)
  obtain ⟨now, events, hlen, hmon⟩ := hrefresh.mon
  have hlast : nextIndex (s c) < (s c).window := Nat.mod_lt _ hw
  have hrow := offset_eq hrows.lt hlast (Nat.zero_le _)
  have hle : (nextIndex (s c) + 1) * ((s c).nEvents + 1) ≤ (s c).window * ((s c).nEvents + 1) :=
    Nat.mul_le_mul_right _ hlast
  rw [Nat.succ_mul] at hle
  have hinside := hrows.inside
  rw [hfresh, hmon]
  have hreduce : lastRow (hmonitorReduce t { nextRow now (s c) with events := events }).mon =
      (events.drop (u32 (nextIndex (s c) * u32 ((s c).nEvents + 1)))).take (s c).nEvents := by
    unfold hmonitorReduce
    split_ifs <;> rfl
  rw [Nat.add_zero] at hrow
  rw [hreduce, List.length_take, List.length_drop, hlen, hrow]
  omega

/-- The cell `j` behind the pointer after a read. -/
theorem read_cell (ha : Separate s m cs) (hf : FreshChildren t answer s cs fresh) (ho : ∀ c ∈ cs, (s c).owner = t)
    (hds : d :: ds ⊆ cs) (hnodup : (d :: ds).Nodup) (h : Runs t answer (readOps m base d ds) s l s') {j : Nat} {v : ℚ}
    (hv : (s m).events[base + j]? = some v) : (s' m).events[base + j]? = some
      ((if j < (lastRow (fresh d)).length then eventAt (fresh d) j else v) +
        sumOver ds fun c => eventAt (fresh c) j) := by
  obtain ⟨-, -, hcells⟩ := read_cells_fresh ha hf ho hds hnodup h
  rw [← List.getElem?_drop] at hv ⊢
  rw [List.map_cons] at hcells
  rw [getElem?_accumulateInto hcells hv, sumOver_map]

/-- With equally wide children the cells do not depend on their order. -/
theorem read_order {s'' : M → Hmonitor Thread ℚ M} {l' : List (M × Event)} {d' : M} {ds' : List M} (ha : Separate s m cs)
    (hf : FreshChildren t answer s cs fresh) (ho : ∀ c ∈ cs, (s c).owner = t) (hnodup : cs.Nodup)
    (hp : (d :: ds).Perm cs) (hp' : (d' :: ds').Perm cs)
    (hwide : (lastRow (fresh d')).length = (lastRow (fresh d)).length)
    (hmax : ∀ c ∈ cs, (lastRow (fresh c)).length ≤ (lastRow (fresh d)).length)
    (h : Runs t answer (readOps m base d ds) s l s') (h' : Runs t answer (readOps m base d' ds') s l' s'') :
    (s'' m).events = (s' m).events := by
  obtain ⟨htake, hlen, -⟩ := read_cells_fresh ha hf ho hp.subset (hp.nodup_iff.mpr hnodup) h
  obtain ⟨htake', hlen', -⟩ := read_cells_fresh ha hf ho hp'.subset (hp'.nodup_iff.mpr hnodup) h'
  apply List.ext_getElem?
  intro i
  by_cases hi : i < base
  · rw [← List.getElem?_take_of_lt hi, ← List.getElem?_take_of_lt (l := (s' m).events) hi, htake, htake']
  obtain ⟨j, rfl⟩ := Nat.exists_eq_add_of_le (Nat.le_of_not_lt hi)
  by_cases hj : base + j < (s m).events.length
  · have hv := List.getElem?_eq_getElem hj
    rw [read_cell ha hf ho hp.subset (hp.nodup_iff.mpr hnodup) h hv,
      read_cell ha hf ho hp'.subset (hp'.nodup_iff.mpr hnodup) h' hv, hwide]
    have hperm := sumOver_perm (hp'.trans hp.symm) fun c => eventAt (fresh c) j
    by_cases hin : j < (lastRow (fresh d)).length
    · rw [if_pos hin, if_pos hin]
      exact congrArg some hperm
    · have hzero : ∀ c ∈ cs, eventAt (fresh c) j = 0 := fun c hc =>
        eventAt_of_le ((hmax c hc).trans (Nat.le_of_not_lt hin))
      rw [sumOver, sumOver, hzero d (hp.subset List.mem_cons_self), hzero d' (hp'.subset List.mem_cons_self), zero_add,
        zero_add] at hperm
      rw [if_neg hin, if_neg hin, hperm]
  · rw [List.getElem?_eq_none (by omega), List.getElem?_eq_none (by omega)]

end Values

/-! ## When every child is refreshed in every order -/

/-- The buffer of `m` holds `events`. -/
def withEvents [DecidableEq M] (s : M → Hmonitor Thread V M) (m : M) (events : List V) : M → Hmonitor Thread V M :=
  Function.update s m { s m with events := events }

/-- Whatever is behind the pointer, a read of the children in any order returns after it has refreshed each of them
once, and it writes the same values in every order. -/
def RefreshesEvery [DecidableEq M] (t : Thread) (answer : Replies ℚ M) (s : M → Hmonitor Thread ℚ M) (m : M)
    (base : Nat) (cs : List M) : Prop :=
  ∀ events : List ℚ, (∀ c ∈ cs, base + (s c).nEvents ≤ events.length) →
    ∃ written, ∀ order : List M, order.Perm cs → ∃ ops l s',
      accumulateRead m base order = some ops ∧ Runs t answer ops (withEvents s m events) l s' ∧
      (∀ c ∈ cs, Refreshed 1 c l (s c) (s' c)) ∧ (s' m).events = written

/-- The thread owns every child, which are different ones, or there is one child of another thread, twice. -/
def OwnedOnce (t : Thread) (s : M → Hmonitor Thread V M) (cs : List M) : Prop :=
  cs.Nodup ∧ (∀ c ∈ cs, (s c).owner = t) ∨ ∃ c, cs = [c, c] ∧ (s c).owner ≠ t

section WithEvents
variable [DecidableEq M] {s : M → Hmonitor Thread V M} {m : M} {cs : List M}

theorem withEvents_of_ne (events : List V) {x : M} (hx : x ≠ m) : withEvents s m events x = s x :=
  Function.update_of_ne hx ..

theorem withEvents_self (events : List V) : withEvents s m events m = { s m with events := events } :=
  Function.update_self ..

theorem Separate.withEvents (h : Separate s m cs) (events : List V) : Separate (withEvents s m events) m cs := by
  have hset : ∀ x, (Hmon.withEvents s m events x).eventset = (s x).eventset := by
    intro x
    by_cases hx : x = m
    · rw [hx, withEvents_self]
    · rw [withEvents_of_ne events hx]
  have hbelow : Below (Hmon.withEvents s m events) = Below s := by
    funext c x
    unfold Below
    simp only [hset]
  have hforest : Forest (Hmon.withEvents s m events) cs = Forest s cs := by
    funext x
    unfold Forest
    rw [hbelow]
  obtain ⟨nodes, hlayered, hnodes⟩ := h.layered
  refine ⟨⟨nodes, by simpa only [hset] using hlayered, hnodes⟩, hforest ▸ h.outside, hbelow ▸ h.apart, fun x hx => ?_,
    fun x hx => ?_⟩
  · rw [hforest] at hx
    rw [withEvents_of_ne events fun heq : x = m => h.outside (heq ▸ hx)]
    exact h.free x hx
  · rw [hforest] at hx
    rw [hset]
    exact h.children x hx

end WithEvents

section Every
variable [DecidableEq M] {s : M → Hmonitor Thread ℚ M} {m : M} {cs : List M} {base : Nat} {t : Thread}
  {answer : Replies ℚ M}

/-- How often the read of every order refreshes each child. -/
theorem RefreshesEvery.counts (h : RefreshesEvery t answer s m base cs) (ha : Separate s m cs) {d : M} {ds : List M}
    (hp : (d :: ds).Perm cs) : ∀ c ∈ cs, (if (s d).owner = t ∧ d = c then 1 else 0) + ds.count c = 1 := by
  intro c hc
  obtain ⟨written, hall⟩ := h (List.replicate (base + total (fun c => (s c).nEvents) cs) 0) fun c hc => by
    rw [List.length_replicate]
    exact Nat.add_le_add_left (le_total (f := fun c => (s c).nEvents) hc) base
  obtain ⟨ops, l, s', hops, hrun, hrefresh, -⟩ := hall _ hp
  cases hops
  have hread := read_refreshed (ha.withEvents _) hp.subset hrun c hc
  have hdm : d ≠ m := fun heq => ha.outside (heq ▸ .of_mem (hp.subset List.mem_cons_self))
  rw [withEvents_of_ne _ hdm] at hread
  exact hread.refreshes.count.symm.trans (hrefresh c hc).refreshes.count

/-- Every child first, in one order. -/
theorem RefreshesEvery.ownedOnce (h : RefreshesEvery t answer s m base cs) (ha : Separate s m cs) : OwnedOnce t s cs := by
  have hfirst : ∀ d ∈ cs, (d :: cs.erase d).Perm cs := fun d hd => (List.perm_cons_erase hd).symm
  have hself : ∀ c ∈ cs, (if (s c).owner = t then 1 else 0) + (cs.count c - 1) = 1 := by
    intro c hc
    have hcount := h.counts ha (hfirst c hc) c hc
    simpa [List.count_erase_self] using hcount
  by_cases ho : ∀ c ∈ cs, (s c).owner = t
  · refine .inl ⟨List.nodup_iff_count_le_one.mpr fun c => ?_, ho⟩
    by_cases hc : c ∈ cs
    · have hcount := hself c hc
      rw [if_pos (ho c hc)] at hcount
      omega
    · rw [List.count_eq_zero_of_not_mem hc]
      exact Nat.zero_le 1
  · -- a child of another thread is there twice, and is every child
    push Not at ho
    obtain ⟨c, hc, ho⟩ := ho
    have hcount := hself c hc
    rw [if_neg ho] at hcount
    have hall : ∀ d ∈ cs, d = c := by
      intro d hd
      by_contra hne
      have hother := h.counts ha (hfirst d hd) c hc
      rw [if_neg fun hand => hne hand.2, List.count_erase_of_ne (Ne.symm hne)] at hother
      omega
    have hrep := List.eq_replicate_of_mem hall
    rw [hrep, List.count_replicate_self] at hcount
    refine .inr ⟨c, ?_, ho⟩
    rw [hrep, show cs.length = 2 by omega]
    rfl

/-- A narrower child first leaves a cell that a wider one first does not. -/
theorem RefreshesEvery.wide (h : RefreshesEvery t answer s m base cs) (ha : Separate s m cs)
    (hrows : ∀ c ∈ cs, 0 < (s c).window ∧ RowsFit (s c) (s c).window) (hnodup : cs.Nodup)
    (ho : ∀ c ∈ cs, (s c).owner = t) {c d : M} (hc : c ∈ cs) (hd : d ∈ cs) : (s d).nEvents ≤ (s c).nEvents := by
  by_contra hlt
  have hle : (s d).nEvents ≤ total (fun c => (s c).nEvents) cs := le_total (f := fun c => (s c).nEvents) hd
  let events := (List.replicate (base + total (fun c => (s c).nEvents) cs) (0 : ℚ)).set (base + (s c).nEvents) 1
  have hlen : events.length = base + total (fun c => (s c).nEvents) cs := by
    rw [List.length_set, List.length_replicate]
  obtain ⟨written, hall⟩ := h events fun c hc => by
    rw [hlen]
    exact Nat.add_le_add_left (le_total (f := fun c => (s c).nEvents) hc) base
  have hpc := (List.perm_cons_erase hc).symm
  have hpd := (List.perm_cons_erase hd).symm
  obtain ⟨_, l, s', hops, hrun, -, rfl⟩ := hall _ hpc
  obtain ⟨_, l', s'', hops', hrun', -, hsame⟩ := hall _ hpd
  cases hops
  cases hops'
  have ha' := ha.withEvents events
  have hne : ∀ c ∈ cs, withEvents s m events c = s c := fun c hc =>
    withEvents_of_ne events fun heq : c = m => ha.outside (heq ▸ .of_mem hc)
  have ho' : ∀ c ∈ cs, (withEvents s m events c).owner = t := fun c hc => by rw [hne c hc, ho c hc]
  obtain ⟨fresh, hfresh⟩ := ha'.exists_fresh t answer
  have hwide : ∀ c ∈ cs, (lastRow (fresh c)).length = (s c).nEvents := by
    intro c hc
    have hfit := hrows c hc
    rw [← hne c hc] at hfit ⊢
    exact fresh_length ha' hfresh ho' hc hfit.1 hfit.2
  have hv : (withEvents s m events m).events[base + (s c).nEvents]? = some 1 := by
    rw [withEvents_self]
    exact List.getElem?_set_self (by rw [List.length_replicate]; omega)
  have hcell := read_cell ha' hfresh ho' hpc.subset (hpc.nodup_iff.mpr hnodup) hrun hv
  have hcell' := read_cell ha' hfresh ho' hpd.subset (hpd.nodup_iff.mpr hnodup) hrun' hv
  have hperm := sumOver_perm (hpd.trans hpc.symm) fun x => eventAt (fresh x) (s c).nEvents
  rw [sumOver, sumOver, eventAt_of_le (hwide c hc).le, zero_add] at hperm
  rw [hwide c hc, if_neg (Nat.lt_irrefl _)] at hcell
  rw [hwide d hd, if_pos (Nat.lt_of_not_le hlt), hperm, hsame, hcell] at hcell'
  have hone := Option.some.inj hcell'
  linarith

/-- The other direction of `counts`. -/
theorem OwnedOnce.counts (h : OwnedOnce t s cs) {d : M} {ds : List M} (hp : (d :: ds).Perm cs) :
    ∀ c ∈ cs, (if (s d).owner = t ∧ d = c then 1 else 0) + ds.count c = 1 := by
  intro c hc
  rcases h with ⟨hnodup, ho⟩ | ⟨x, rfl, ho⟩
  · have hcount : (d :: ds).count c = 1 := List.count_eq_one_of_mem (hp.nodup_iff.mpr hnodup) (hp.mem_iff.mpr hc)
    rw [List.count_cons, Nat.add_comm] at hcount
    simpa [ho d (hp.subset List.mem_cons_self)] using hcount
  · have hrep : d :: ds = List.replicate 2 x := List.perm_replicate.mp hp
    obtain ⟨rfl, rfl⟩ := List.cons.inj hrep
    obtain rfl : c = d := by simpa using hc
    rw [if_neg fun hand => ho hand.1]
    simp

/-- **In every order of the children a read refreshes each child once and writes the same values exactly when there is a
child, the calling thread owns every child and each is there once (or there is one child of another thread, twice), and
the children are equally wide.** -/
theorem refreshesEvery_iff (ha : Separate s m cs) (hrows : ∀ c ∈ cs, 0 < (s c).window ∧ RowsFit (s c) (s c).window) :
    RefreshesEvery t answer s m base cs ↔
      cs ≠ [] ∧ OwnedOnce t s cs ∧ ∀ c ∈ cs, ∀ d ∈ cs, (s c).nEvents = (s d).nEvents := by
  constructor
  · intro h
    refine ⟨?_, h.ownedOnce ha, ?_⟩
    · rintro rfl
      obtain ⟨written, hall⟩ := h (List.replicate base 0) fun c hc => absurd hc List.not_mem_nil
      obtain ⟨ops, l, s', hops, -⟩ := hall [] (.refl [])
      cases hops
    · intro c hc d hd
      rcases h.ownedOnce ha with ⟨hnodup, ho⟩ | ⟨x, rfl, -⟩
      · exact Nat.le_antisymm (h.wide ha hrows hnodup ho hd hc) (h.wide ha hrows hnodup ho hc hd)
      · have hall : ∀ y ∈ [x, x], y = x := by simp
        rw [hall c hc, hall d hd]
  · rintro ⟨hcs, hown, hwide⟩ events hevents
    have ha' := ha.withEvents events
    have hne : ∀ c ∈ cs, withEvents s m events c = s c := fun c hc =>
      withEvents_of_ne events fun heq : c = m => ha.outside (heq ▸ .of_mem hc)
    obtain ⟨d₀, ds₀, hcons⟩ := List.exists_cons_of_ne_nil hcs
    have hp₀ : (d₀ :: ds₀).Perm cs := hcons ▸ .refl _
    obtain ⟨l₀, s₀, hrun₀⟩ := exists_readRun t answer base ha' hp₀.subset
    refine ⟨(s₀ m).events, fun order hp => ?_⟩
    cases order with
    | nil => exact absurd hp.nil_eq.symm hcs
    | cons d ds =>
      obtain ⟨l, s', hrun⟩ := exists_readRun t answer base ha' hp.subset
      refine ⟨_, l, s', rfl, hrun, fun c hc => ?_, ?_⟩
      · have hread := read_refreshed ha' hp.subset hrun c hc
        rw [hne d (hp.subset List.mem_cons_self), hne c hc, hown.counts hp c hc] at hread
        exact hread
      · rcases hown with ⟨hnodup, ho⟩ | ⟨x, rfl, -⟩
        · have ho' : ∀ c ∈ cs, (withEvents s m events c).owner = t := fun c hc => by rw [hne c hc, ho c hc]
          obtain ⟨fresh, hfresh⟩ := ha'.exists_fresh t answer
          have hlen : ∀ c ∈ cs, (lastRow (fresh c)).length = (s d₀).nEvents := by
            intro c hc
            have hfit := hrows c hc
            rw [hwide d₀ (hp₀.subset List.mem_cons_self) c hc]
            rw [← hne c hc] at hfit ⊢
            exact fresh_length ha' hfresh ho' hc hfit.1 hfit.2
          have hd₀ := hlen d₀ (hp₀.subset List.mem_cons_self)
          exact read_order ha' hfresh ho' hnodup hp₀ hp ((hlen d (hp.subset List.mem_cons_self)).trans hd₀.symm)
            (fun c hc => (hlen c hc).trans_le hd₀.ge) hrun₀ hrun
        · have hrep : d :: ds = List.replicate 2 x := List.perm_replicate.mp hp
          obtain ⟨rfl, rfl⟩ := List.cons.inj hrep
          obtain ⟨rfl, rfl⟩ := List.cons.inj hcons
          obtain ⟨-, rfl⟩ := hrun₀.det hrun
          rfl

end Every

/-! ## Two cores -/

/-- Monitors of the fake plugin, with their owners. -/
def ownedMonitors (owner : ℕ → Thread) (i : ℕ) : Hmonitor Thread ℚ ℕ :=
  { namedMonitors (fun _ => [102]) i with owner := owner i }

/-- Leaves read nothing in turn. -/
theorem ownedMonitors_apart (owner : ℕ → Thread) : Separate (ownedMonitors owner) 2 [0, 1] := by
  have hleaf : ∀ x, (ownedMonitors owner x).eventset = .leaf := fun _ => rfl
  have hbelow : ∀ c x, ¬ Below (ownedMonitors owner) c x := by
    intro c x h
    obtain ⟨d, hd, -⟩ := Relation.TransGen.head'_iff.mp h
    exact absurd hd List.not_mem_nil
  refine ⟨⟨[0, 1], ⟨by decide, fun _ h => absurd h List.not_mem_nil, by decide, fun _ h => absurd h List.not_mem_nil,
    trivial⟩, fun c hc => hc⟩, ?_, ?_, fun x _ => rfl, fun x _ => nofun⟩
  · rintro ⟨c, hc, rfl | h⟩
    · exact absurd hc (by decide)
    · exact hbelow c 2 h
  · rintro c hc d hd hne x (rfl | h) (hxd | h')
    · exact hne hxd
    · exact hbelow d x h'
    · exact hbelow c x h
    · exact hbelow c x h

/-- Two children of the main thread, read by it. -/
theorem refreshesEvery_main :
    RefreshesEvery .main (fun _ n => ⟨true, [(n : ℚ)], 0⟩) (ownedMonitors fun _ => .main) 2 0 [0, 1] :=
  (refreshesEvery_iff (ownedMonitors_apart _) fun _ _ => ⟨Nat.zero_lt_one, Nat.le_refl 2, (by decide : 2 < 2 ^ 32)⟩).mpr
    ⟨List.cons_ne_nil _ _, .inl ⟨by decide, fun _ _ => rfl⟩, fun _ _ _ _ => rfl⟩

/-- A first child of another thread: the read returns, but has not touched it. -/
theorem first_child_stale :
    ¬ RefreshesEvery .main (fun _ n => ⟨true, [(n : ℚ)], 0⟩) (ownedMonitors .core) 2 0 [0, 1] ∧
      ∃ l s', Runs .main (fun _ n => ⟨true, [(n : ℚ)], 0⟩) (readOps 2 0 0 [1]) (ownedMonitors .core) l s' ∧
        eventsOf 0 l = [] ∧ (s' 0).total = (ownedMonitors .core 0).total := by
  have ha := ownedMonitors_apart .core
  refine ⟨fun h => ?_, ?_⟩
  · rcases h.ownedOnce ha with ⟨-, ho⟩ | ⟨c, hc, -⟩
    · exact absurd (ho 0 (by decide)) nofun
    · obtain ⟨rfl, hc⟩ := List.cons.inj hc
      exact absurd hc (by decide)
  · obtain ⟨l, s', hrun⟩ := exists_readRun .main (fun _ n => ⟨true, [(n : ℚ)], 0⟩) 0 ha
      (List.Subset.refl [0, 1])
    have hzero := read_refreshed ha (List.Subset.refl _) hrun 0 (by decide)
    rw [show ((if (ownedMonitors .core 0).owner = .main ∧ 0 = 0 then 1 else 0) + [1].count 0) = 0 by decide] at hzero
    refine ⟨l, s', hrun, ?_, hzero.total⟩
    cases hevs : eventsOf 0 l with
    | nil => rfl
    | cons ev evs =>
      have hrefreshes := hzero.refreshes
      rw [hevs] at hrefreshes
      cases hrefreshes

end Hmon
